import OpenImpact.Lopti.CommonSub
import OpenImpact.Lopti.ConstRule
import OpenImpact.Lopti.CopyProp
import OpenImpact.Lopti.Folding

/-!
# The block passes in turn

`L_local_code_optimization` with the passes that are modelled: over each block constant and copy
propagation, common subexpressions and constant folding run in turn until nothing changes, at most
`MAX_NUM_ITERATION` times. Each block keeps its run, guards and calls included, if on the way no
operation is folded whose operands do not fit, no zero is divided by itself and no extension is
propagated into a store that has the extended register in its address
(`rewrites_localCodeOptimization`). Blocks without stores, divisions and shifts are such
(`blockFits_of_plain`).

This is the loop over the blocks: the call of `L_partial_dead_code_removal` before it is not modelled.
Nor are operations with several destinations, moves of floats, and the folding of opcodes that
`Opcode` does not name.
-/

namespace OpenImpact.Lopti

open Foundation Lcode

/-- `Lopti_do_local_opti`, `Lopti_do_local_constant_prop`, `Lopti_do_local_copy_prop`,
`Lopti_do_local_common_sub_elim` and `Lopti_do_local_constant_fold`. -/
structure LocalParms where
  doLocalOpti : Bool
  doConstantProp : Bool
  doCopyProp : Bool
  doCommonSub : Bool
  doConstantFold : Bool

/-- One of the passes over a block. -/
inductive LocalPass where
  | constantProp (immedOnly : Bool)
  | copyProp
  | commonSub (flags : MoveFlags)
  | constantFold

section Driver

variable (t : LocalTarget)

/-- A pass over the block. -/
def LocalPass.apply (ops : List Oper) : LocalPass → Run (List Oper × ℕ)
  | .constantProp immedOnly => localConstantPropagation t.toTarget immedOnly ops
  | .copyProp => localCopyPropagation t ops
  | .commonSub flags => localCommonSubexpression t flags ops
  | .constantFold => foldBlock t.toTarget ops

/-- A pass that is done if its parameter says so. -/
def LocalPass.applyIf (on : Bool) (p : LocalPass) (ops : List Oper) : Run (List Oper × ℕ) :=
  if on then p.apply t ops else .ok (ops, 0)

/-- `move_flags` for no moves, and for moves of labels and strings. -/
def moveFlags (movFlag : Bool) : MoveFlags := ⟨false, movFlag, movFlag⟩

/-- The iterations over a block, with the number of them that are left: the block and whether an
optimization has been applied. -/
def iterate (parms : LocalParms) : ℕ → List Oper → Run (List Oper × Bool)
  | 0, ops => .ok (ops, false)
  | k + 1, ops => do
    let (ops, c1) ← (LocalPass.constantProp false).applyIf t parms.doConstantProp ops
    let (ops, c3) ← LocalPass.copyProp.applyIf t parms.doCopyProp ops
    let (ops, c5) ← (LocalPass.commonSub (moveFlags false)).applyIf t parms.doCommonSub ops
    if c5 > 20 then iterate parms k ops
    else do
      let (ops, c8) ← LocalPass.constantFold.applyIf t parms.doConstantFold ops
      if c1 + c3 + c5 + c8 = 0 then .ok (ops, false)
      else do
        let (ops, _) ← iterate parms k ops
        .ok (ops, true)

/-- `MAX_NUM_ITERATION`. -/
def maxNumIteration : ℕ := 15

/-- The body of the loop over the blocks. -/
def optimizeBlock (parms : LocalParms) (movFlag : Bool) (ops : List Oper) :
    Run (List Oper × Bool) := do
  let (ops, applied) ← iterate t parms maxNumIteration ops
  let (ops, _) ← (LocalPass.commonSub (moveFlags movFlag)).applyIf t parms.doCommonSub ops
  let (ops, _) ← LocalPass.copyProp.applyIf t parms.doCopyProp ops
  .ok (ops, applied)

/-- The loop over the blocks, each with the flag `L_CB_BOUNDARY`. -/
def optimizeBlocks (parms : LocalParms) (movFlag : Bool) :
    List (Bool × List Oper) → Run (List (Bool × List Oper) × Bool)
  | [] => .ok ([], false)
  | (boundary, ops) :: cbs => do
    let (ops', applied) ← if boundary then .ok (ops, false) else optimizeBlock t parms movFlag ops
    let (cbs', applied') ← optimizeBlocks parms movFlag cbs
    .ok ((boundary, ops') :: cbs', applied || applied')

/-- `L_local_code_optimization`: the blocks and whether an optimization has been applied. -/
def localCodeOptimization (parms : LocalParms) (movFlag : Bool) (cbs : List (Bool × List Oper)) :
    Run (List (Bool × List Oper) × Bool) :=
  if parms.doLocalOpti then optimizeBlocks t parms movFlag cbs else .ok (cbs, false)

/-- The blocks that passes reach from a block. -/
inductive Reached (ops : List Oper) : List Oper → Prop
  | refl : Reached ops ops
  | step {ops₁ ops₂ : List Oper} {c : ℕ} (p : LocalPass) :
      Reached ops ops₁ → p.apply t ops₁ = .ok (ops₂, c) → Reached ops ops₂

end Driver

section Correct

variable {μ : Type} {t : LocalTarget} {w : World μ} {g : ℕ → Bool} {s : State μ}
  {ops ops₁ ops₂ ops' : List Oper} {arith : ℕ → ℕ × ℕ → List (BitVec 32) → BitVec 32}
  {p : LocalPass} {parms : LocalParms}

/-- An amount for which C defines the shift that `L_evaluate_int_arithmetic` does. -/
def AmountFits : Opcode → BitVec 64 → Prop
  | .lsl, s₂ => s₂.toNat < 64
  | .lsr, s₂ => s₂.toNat < 64
  | .asr, s₂ => (s₂.setWidth 32).toNat < 32
  | _, _ => True

/-- What the passes ask of a block that runs from `s`. -/
structure BlockFits (t : LocalTarget) (w : World μ) (s : State μ) (ops : List Oper) : Prop where
  copy : LoopFits (copyStart t) (CopyFits t) [] ops.length ops
  fold : ∀ o ∈ ops, foldIdentity o = none → FoldFits t.toTarget o
  -- outside of these amounts the model's shift is not the code's
  amount : ∀ o ∈ ops, foldIdentity o = none → o.src.all Lcode.Operand.isIntConstant = true →
    AmountFits o.opc (sourceValue o 1)
  divide : Meets (Oper.step w) (DivisorFits w) ops s

/-! ### Blocks that fit -/

/-- An operation that is no store and whose operands always fit. -/
def Plain (t : LocalTarget) (o : Oper) : Prop :=
  t.storeCtype o = none ∧ ∀ s₁ s₂, OperandsFit o.opc s₁ s₂ ∧ AmountFits o.opc s₂

theorem Plain.withSrc {o : Oper} (hl : Lawful t g) (h : Plain t o) (src : List Operand) :
    Plain t { o with src := src } :=
  ⟨(hl.storeCtype o src).trans h.1, h.2⟩

theorem plain_of_not_isOther {o : Oper} (hl : Lawful t g) (hother : o.opc.isOther = false)
    (h : ∀ s₁ s₂, OperandsFit o.opc s₁ s₂ ∧ AmountFits o.opc s₂) : Plain t o := by
  refine ⟨?_, h⟩
  cases hc : t.storeCtype o with
  | none => rfl
  | some c => rw [hl.store_isOther o c hc] at hother; cases hother

theorem plain_replaceCommon {flags : MoveFlags} {opA opB opB' : Oper} {n : ℕ} (hl : Lawful t g)
    (hB : Plain t opB) (h : replaceCommon t flags opA opB = .ok (opB', n)) : Plain t opB' := by
  rcases replaceCommon_cases h with rfl | ⟨-, rfl⟩ | ⟨d, -, -, rfl⟩ | ⟨d, -, rfl⟩
  · exact hB
  · exact plain_of_not_isOther hl rfl fun _ _ ↦ ⟨trivial, trivial⟩
  · exact hB.withSrc hl _
  · exact plain_of_not_isOther hl rfl fun _ _ ↦ ⟨trivial, trivial⟩

theorem plain_copyStart {prevs rest : List Oper} {opA opB opB' : Oper} {r : Rule Halt Oper} {n : ℕ}
    (hl : Lawful t g) (hstart : copyStart t prevs opA rest = .ok (some r)) (hB : Plain t opB)
    (h : r.rewrite opB = .ok (opB', n)) : Plain t opB' := by
  rw [copyStart] at hstart
  split at hstart
  · cases hstart
  · cases hstart
    cases h
    exact hB.withSrc hl _
  · split_ifs at hstart
    cases hstart

theorem plain_apply (hl : Lawful t g) (hops : ∀ o ∈ ops, Plain t o) {c : ℕ}
    (h : p.apply t ops = .ok (ops', c)) : ∀ o ∈ ops', Plain t o := by
  cases p with
  | constantProp immedOnly =>
    change propagateLoop t.toTarget immedOnly ops.length ops = _ at h
    rw [← sweepLoop_constStart []] at h
    refine forall_sweepLoop (fun prevs a rest r hstart b b' c hb hrw ↦ ?_) hops h
    obtain ⟨v, d, hc, -, -, -, rfl⟩ := constStart_eq_some hstart
    obtain rfl : (replaceSources t.toTarget d v b).1 = b' := congrArg Prod.fst (Except.ok.inj hrw)
    rw [replaceSources_eq hc]
    exact hb.withSrc hl _
  | copyProp =>
    exact forall_sweepLoop (fun _ _ _ _ hstart _ _ _ hb hrw ↦ plain_copyStart hl hstart hb hrw) hops h
  | commonSub flags =>
    refine forall_sweepLoop (fun prevs a rest r hstart b b' c hb hrw ↦ ?_) hops h
    rw [commonStart] at hstart
    split_ifs at hstart
    · cases hstart
      exact plain_replaceCommon hl hb hrw
    · cases hstart
  | constantFold =>
    change foldBlock t.toTarget ops = _ at h
    induction ops generalizing ops' c with
    | nil => cases h; exact hops
    | cons o ops ih =>
      obtain ⟨ho, hrest⟩ := List.forall_mem_cons.1 hops
      obtain ⟨⟨o', change₁⟩, hfold, h⟩ := Run.bind_eq_ok.1 h
      obtain ⟨⟨os', change₂⟩, hloop, h⟩ := Run.bind_eq_ok.1 h
      cases h
      refine List.forall_mem_cons.2 ⟨?_, ih hrest hloop⟩
      rcases foldOperation_cases hfold with rfl | ⟨-, src, rfl⟩
      · exact ho
      · exact plain_of_not_isOther hl rfl fun _ _ ↦ ⟨trivial, trivial⟩

/-- A block of plain operations stays one. -/
theorem Reached.plain (hl : Lawful t g) (hops : ∀ o ∈ ops, Plain t o) (h : Reached t ops ops') :
    ∀ o ∈ ops', Plain t o := by
  induction h with
  | refl => exact hops
  | step p _ happly ih => exact plain_apply hl ih happly

/-- No plain operation divides. -/
theorem Plain.divisorFits {o : Oper} (h : Plain t o) : DivisorFits w s o := by
  intro hone
  have hdiv := divOpcode_of_foldIdentity hone
  have hfit := (h.2 (BitVec.ofNat 64 (2 ^ 32)) 0).1
  rw [divOpcode, Bool.or_eq_true, decide_eq_true_eq, decide_eq_true_eq] at hdiv
  rcases hdiv with hopc | hopc
  · rw [hopc] at hfit
    exact absurd hfit.1 (by decide)
  · rw [hopc] at hfit
    exact absurd hfit.1 (by decide)

theorem blockFits_of_plain (hl : Lawful t g) (hops : ∀ o ∈ ops, Plain t o) : BlockFits t w s ops where
  copy := loopFits_of_forall (fun _ _ _ _ hstart _ _ _ hb hrw ↦ plain_copyStart hl hstart hb hrw)
    (fun _ _ hb _ hstore ↦ absurd hb.1 hstore) hops
  fold o ho _ _ _ _ _ := ((hops o ho).2 _ _).1
  amount o ho _ _ := ((hops o ho).2 0 _).2
  divide := meets_of_forall fun _ o ho ↦ (hops o ho).divisorFits

/-! ### The blocks keep their runs -/

theorem LocalPass.rewrites (hl : Lawful t g) (hfits : BlockFits t w s ops)
    (hmeets : Meets (Oper.step w) (Runs t w g arith) ops s) {c : ℕ}
    (h : p.apply t ops = .ok (ops', c)) : Rewrites (Oper.step w) (Runs t w g arith) ops ops' s := by
  cases p with
  | constantProp immedOnly => exact rewrites_propagateLoop hl hmeets h
  | copyProp => exact rewrites_localCopyPropagation hl hfits.copy hmeets h
  | commonSub flags => exact rewrites_localCommonSubexpression hl hmeets h
  | constantFold => exact rewrites_foldBlock hmeets hfits.fold hfits.divide h

theorem Reached.rewrites (hl : Lawful t g) (hfits : ∀ ops₁, Reached t ops ops₁ → BlockFits t w s ops₁)
    (hmeets : Meets (Oper.step w) (Runs t w g arith) ops s) (h : Reached t ops ops') :
    Rewrites (Oper.step w) (Runs t w g arith) ops ops' s := by
  induction h with
  | refl => exact Rewrites.refl hmeets
  | step p hreach happly ih =>
    exact ih.trans (p.rewrites hl (hfits _ hreach) ih.meets happly)

theorem Reached.applyIf {on : Bool} {c : ℕ} (hr : Reached t ops ops₁)
    (h : p.applyIf t on ops₁ = .ok (ops₂, c)) : Reached t ops ops₂ := by
  rw [LocalPass.applyIf] at h
  split_ifs at h
  · exact hr.step p h
  · cases h
    exact hr

theorem Reached.iterate {k : ℕ} {applied : Bool} (hr : Reached t ops ops₁)
    (h : iterate t parms k ops₁ = .ok (ops₂, applied)) : Reached t ops ops₂ := by
  induction k generalizing ops₁ applied with
  | zero => cases h; exact hr
  | succ k ih =>
    obtain ⟨⟨opsC, c1⟩, hconst, h⟩ := Run.bind_eq_ok.1 h
    obtain ⟨⟨opsD, c3⟩, hcopy, h⟩ := Run.bind_eq_ok.1 h
    obtain ⟨⟨opsE, c5⟩, hcommon, h⟩ := Run.bind_eq_ok.1 h
    have hE := ((hr.applyIf hconst).applyIf hcopy).applyIf hcommon
    dsimp only at h
    split_ifs at h with hmany
    · exact ih hE h
    · obtain ⟨⟨opsF, c8⟩, hfold, h⟩ := Run.bind_eq_ok.1 h
      dsimp only at h
      split_ifs at h
      · cases h
        exact hE.applyIf hfold
      · obtain ⟨⟨opsG, applied'⟩, hiter, h⟩ := Run.bind_eq_ok.1 h
        cases h
        exact ih (hE.applyIf hfold) hiter

theorem reached_optimizeBlock {movFlag applied : Bool}
    (h : optimizeBlock t parms movFlag ops = .ok (ops', applied)) : Reached t ops ops' := by
  obtain ⟨⟨ops₁, applied₁⟩, hiter, h⟩ := Run.bind_eq_ok.1 h
  obtain ⟨⟨ops₂, c⟩, hcommon, h⟩ := Run.bind_eq_ok.1 h
  obtain ⟨⟨ops₃, c'⟩, hcopy, h⟩ := Run.bind_eq_ok.1 h
  cases h
  exact ((Reached.refl.iterate hiter).applyIf hcommon).applyIf hcopy

/-- A block and what becomes of it: a block at a region's boundary is left alone, and every other one
does what it did from every state in which the blocks on the way fit. -/
structure CbKept (t : LocalTarget) (w : World μ) (g : ℕ → Bool)
    (arith : ℕ → ℕ × ℕ → List (BitVec 32) → BitVec 32) (cb cb' : Bool × List Oper) : Prop where
  boundary : cb'.1 = cb.1
  untouched : cb.1 = true → cb'.2 = cb.2
  rewrites : ∀ s, (∀ ops, Reached t cb.2 ops → BlockFits t w s ops) →
    Meets (Oper.step w) (Runs t w g arith) cb.2 s →
      Rewrites (Oper.step w) (Runs t w g arith) cb.2 cb'.2 s

/-- A block that is left alone. -/
theorem CbKept.refl (cb : Bool × List Oper) : CbKept t w g arith cb cb where
  boundary := rfl
  untouched _ := rfl
  rewrites _ _ hmeets := Rewrites.refl hmeets

theorem cbKept_optimizeBlocks {cbs cbs' : List (Bool × List Oper)} {movFlag applied : Bool}
    (hl : Lawful t g) (h : optimizeBlocks t parms movFlag cbs = .ok (cbs', applied)) :
    cbs.Forall₂ (CbKept t w g arith) cbs' := by
  induction cbs generalizing cbs' applied with
  | nil => cases h; exact .nil
  | cons cb cbs ih =>
    obtain ⟨boundary, ops⟩ := cb
    rw [optimizeBlocks] at h
    cases boundary with
    | true =>
      rw [if_pos rfl] at h
      obtain ⟨_, hops, h⟩ := Run.bind_eq_ok.1 h
      cases hops
      obtain ⟨⟨cbs₁, applied₁⟩, hcbs, h⟩ := Run.bind_eq_ok.1 h
      cases h
      exact .cons (.refl _) (ih hcbs)
    | false =>
      rw [if_neg Bool.false_ne_true] at h
      obtain ⟨⟨ops', applied₁⟩, hblock, h⟩ := Run.bind_eq_ok.1 h
      obtain ⟨⟨cbs₁, applied₂⟩, hcbs, h⟩ := Run.bind_eq_ok.1 h
      cases h
      refine .cons ⟨rfl, fun hb ↦ (by cases hb), fun s hfits hmeets ↦ ?_⟩ (ih hcbs)
      exact (reached_optimizeBlock hblock).rewrites hl hfits hmeets

/-- **The passes in turn keep what each block does**. -/
theorem rewrites_localCodeOptimization {cbs cbs' : List (Bool × List Oper)} {movFlag applied : Bool}
    (hl : Lawful t g) (h : localCodeOptimization t parms movFlag cbs = .ok (cbs', applied)) :
    cbs.Forall₂ (CbKept t w g arith) cbs' := by
  rw [localCodeOptimization] at h
  split_ifs at h
  · exact cbKept_optimizeBlocks hl h
  · cases h
    exact List.forall₂_same.2 fun cb _ ↦ .refl cb

/-- Sums of a constant, one of them under a guard, and an identity. -/
def sumsBlock : List Oper :=
  [⟨1, .mov, some 1, [.int 3], none⟩, ⟨2, .add, some 3, [.reg 1, .reg 2], none⟩,
    ⟨3, .add, some 4, [.reg 1, .reg 2], some 7⟩, ⟨4, .mov, some 5, [.reg 4], none⟩,
    ⟨5, .add, some 6, [.reg 1, .int 5], none⟩, ⟨6, .addU, some 8, [.reg 6, .reg 5], none⟩,
    ⟨7, .mul, some 9, [.int 1, .reg 8], none⟩]

/-- The block with the constant propagated and folded, one sum, and the copy used where it is made. -/
def sumsOptimized : List Oper :=
  [⟨1, .mov, some 1, [.int 3], none⟩, ⟨2, .add, some 3, [.int 3, .reg 2], none⟩,
    ⟨3, .mov, some 4, [.reg 3], some 7⟩, ⟨4, .mov, some 5, [.reg 4], none⟩,
    ⟨5, .mov, some 6, [.int 8], none⟩, ⟨6, .addU, some 8, [.int 8, .reg 4], none⟩,
    ⟨7, .mov, some 9, [.reg 8], none⟩]

theorem rewrites_localCodeOptimization_sumsBlock :
    Rewrites (Oper.step charWorld) (Runs charTarget charWorld (fun _ ↦ true) fun _ _ _ ↦ 0)
      sumsBlock sumsOptimized ⟨⟨BitVec.ofNat 32, fun _ ↦ true⟩, []⟩ := by
  have hopcs : ∀ o ∈ sumsBlock, o.opc ∈ [.mov, .add, .addU, .mul] := by decide
  have hplain : ∀ o ∈ sumsBlock, Plain charTarget o := by
    intro o ho
    refine plain_of_not_isOther lawful_charTarget ?_ ?_
    · revert o
      decide
    · have hopc := hopcs o ho
      simp only [List.mem_cons, List.not_mem_nil, or_false] at hopc
      rcases hopc with h | h | h | h <;> rw [h] <;> exact fun _ _ ↦ ⟨trivial, trivial⟩
  have hrun : localCodeOptimization charTarget ⟨true, true, true, true, true⟩ true
      [(false, sumsBlock), (true, sumsBlock)] =
        .ok ([(false, sumsOptimized), (true, sumsBlock)], true) := by
    decide +kernel
  have hkept : [(false, sumsBlock), (true, sumsBlock)].Forall₂
      (CbKept charTarget charWorld (fun _ ↦ true) fun _ _ _ ↦ 0)
      [(false, sumsOptimized), (true, sumsBlock)] :=
    rewrites_localCodeOptimization lawful_charTarget hrun
  refine (List.forall₂_cons.1 hkept).1.rewrites _ (fun ops hreach ↦ ?_) ?_
  · exact blockFits_of_plain lawful_charTarget (hreach.plain lawful_charTarget hplain)
  · exact ⟨⟨rfl, operOk_of_not_isOther rfl⟩, ⟨rfl, operOk_of_not_isOther rfl⟩,
      ⟨rfl, operOk_of_not_isOther rfl⟩, ⟨rfl, operOk_of_not_isOther rfl⟩,
      ⟨rfl, operOk_of_not_isOther rfl⟩, ⟨rfl, operOk_of_not_isOther rfl⟩,
      ⟨rfl, operOk_of_not_isOther rfl⟩, trivial⟩

end Correct

end OpenImpact.Lopti
