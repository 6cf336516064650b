import OpenImpact.Lopti.Evaluate
import Mathlib.Data.List.GetD

/-!
# Constant propagation and folding in a block

`L_local_constant_propagation` and the constant-operand case of `L_local_constant_folding`. Propagation
never changes what a block does. Folding does if it meets an operation whose 64-bit operands are not
extended from 32 bits in the way the operation takes them; in every sequence of the two passes in which
this does not happen the block stays the same (`run_eq_of_runPasses`).
-/

namespace OpenImpact.Lopti

open Foundation Lcode

/-- What the passes ask of an operation beyond its operands: `M_num_oper_required_for`, the attribute
`do_not_constant_fold` and the flag `L_OPER_VOLATILE` by its `id`, `L_can_change_src_operand` and
`L_is_fragile_macro` by a register, `L_sync_opcode`, `L_general_subroutine_call_opcode` and the
predicate queries. -/
structure Target where
  numOperRequired : Oper → ℤ
  doNotConstantFold : ℕ → Bool
  volatile : ℕ → Bool
  canChangeSrcOperand : Oper → ℕ → Bool
  fragileMacro : ℕ → Bool
  syncOpcode : Oper → Bool
  subroutineCall : Oper → Bool
  supersetPredicateOps : Oper → Oper → Bool
  intersectingPredicatesOps : Oper → Oper → Bool

/-! ### Propagation -/

/-- `L_is_constant`. -/
def isConstant : Operand → Bool
  | .int _ => true
  | .label _ => true
  | .reg _ => false

/-- `L_unsigned_int_opcode` or `L_shift_opcode`. -/
def unsignedOrShift : Opcode → Bool
  | .addU | .subU | .mulU | .divU | .remU | .lsl | .lsr | .asr => true
  | _ => false

/-- `Lop_ADD_CARRY` to `Lop_MUL_WIDE_U`. -/
def carryOpcode : Opcode → Bool
  | .other opc => 520 ≤ opc && opc ≤ 525
  | _ => false

section Propagation

variable (t : Target)

/-- `L_no_defs_between`, of the operations in between. -/
def noDefsBetween (d : ℕ) (between : List Oper) (opB : Oper) : Bool :=
  match opB.pred with
  | some _ => between.all fun pA ↦ !t.intersectingPredicatesOps pA opB || pA.dest ≠ some d
  | none => between.all fun pA ↦ pA.dest ≠ some d

/-- `L_no_danger`, with no memory flags, of the operations before `opB`. -/
def noDanger (d : ℕ) (before : List Oper) : Bool :=
  before.all fun o ↦ !t.syncOpcode o && !(t.fragileMacro d && t.subroutineCall o)

/-- The constant as the operation gets it. -/
def maskedFor (opc : Opcode) : Operand → Operand
  | .int i => if unsignedOrShift opc then .int ((i.setWidth 32).setWidth 64) else .int i
  | c => c

/-- One source in the loop over the sources. -/
def replaceSource (d : ℕ) (c : Operand) (st : Oper × ℕ) (i : ℕ) : Oper × ℕ :=
  let (opB, change) := st
  if opB.src[i]? = some (.reg d) then
    let new := { opB with src := opB.src.set i (maskedFor opB.opc c) }
    if t.numOperRequired new > t.numOperRequired opB then (opB, change) else (new, change + 1)
  else (opB, change)

/-- The loop over the sources. -/
def replaceSources (d : ℕ) (c : Operand) (opB : Oper) : Oper × ℕ :=
  (List.range opB.src.length).foldl (replaceSource t d c) (opB, 0)

/-- The inner loop, for a move of `c` to `d`. -/
def propagateFrom (opA : Oper) (d : ℕ) (c : Operand) : List Oper → List Oper → List Oper × ℕ
  | _, [] => ([], 0)
  | between, opB :: rest =>
    if .reg d ∉ opB.src || !t.canChangeSrcOperand opB d || !t.supersetPredicateOps opA opB ||
        !noDefsBetween t d between opB || t.doNotConstantFold opB.id || carryOpcode opB.opc then
      let (rest', change) := propagateFrom opA d c (between ++ [opB]) rest
      (opB :: rest', change)
    else if !noDanger t d (opA :: between) then (opB :: rest, 0)
    else
      let (opB', change) := replaceSources t d c opB
      let (rest', change') := propagateFrom opA d c (between ++ [opB']) rest
      (opB' :: rest', change + change')

/-- The outer loop, with the number of operations that are left. -/
def propagateLoop (immedOnly : Bool) : ℕ → List Oper → Run (List Oper × ℕ)
  | 0, ops => .ok (ops, 0)
  | _ + 1, [] => .ok ([], 0)
  | n + 1, opA :: rest =>
    match opA.opc, opA.src[0]?, opA.dest with
    | .mov, some c, some d =>
      if isConstant c && (!immedOnly || c.isIntConstant) then do
        let (rest, change) := propagateFrom t opA d c [] rest
        let (rest, change') ← propagateLoop immedOnly n rest
        .ok (opA :: rest, change + change')
      else do
        let (rest, change) ← propagateLoop immedOnly n rest
        .ok (opA :: rest, change)
    | .mov, some c, none =>
      if isConstant c && (!immedOnly || c.isIntConstant) && !rest.isEmpty then
        .error (.punt "L_is_src_operand: NULL operand")
      else do
        let (rest, change) ← propagateLoop immedOnly n rest
        .ok (opA :: rest, change)
    | _, _, _ => do
      let (rest, change) ← propagateLoop immedOnly n rest
      .ok (opA :: rest, change)

/-- `L_local_constant_propagation`: the block and the number of changes. -/
def localConstantPropagation (immedOnly : Bool) (ops : List Oper) : Run (List Oper × ℕ) :=
  propagateLoop t immedOnly ops.length ops

end Propagation

/-! ### Folding -/

/-- `L_general_arithmetic_opcode`, of the opcodes that are modelled. -/
def isArithmetic : Opcode → Bool
  | .noOp | .mov | .other _ => false
  | _ => true

/-- `L_convert_to_move`. -/
def convertToMove (t : Target) (o : Oper) (src : Operand) : Run Oper :=
  if t.volatile o.id then .error (.punt "L_convert_to_move: Cannot convert volatile oper %d")
  else if o.dest = none then
    .error (.punt "L_convert_to_move: oper, dest, src may not be NULL")
  else .ok { o with opc := .mov, src := [src] }

/-- The constant-operand case of `L_local_constant_folding`, for one operation. -/
def foldOper (t : Target) (o : Oper) : Run (Oper × ℕ) :=
  if t.doNotConstantFold o.id then .ok (o, 0)
  else if isArithmetic o.opc && o.src.all Lcode.Operand.isIntConstant then do
    let ok ← noExceptions o
    if ok then do
      let imval ← evaluateIntArithmetic o
      let o' ← convertToMove t o (.int imval)
      .ok (o', 1)
    else .ok (o, 0)
  else .ok (o, 0)

/-- The constant-operand case of `L_local_constant_folding`: the block and the number of changes. -/
def localConstantFolding (t : Target) : List Oper → Run (List Oper × ℕ)
  | [] => .ok ([], 0)
  | o :: os => do
    let (o, change) ← foldOper t o
    let (os, change') ← localConstantFolding t os
    .ok (o :: os, change + change')

/-- One of the passes. -/
inductive Pass where
  | propagate (immedOnly : Bool)
  | fold
  deriving DecidableEq

/-- A pass over the block. -/
def Pass.apply (t : Target) (ops : List Oper) : Pass → Run (List Oper)
  | .propagate immedOnly => Prod.fst <$> localConstantPropagation t immedOnly ops
  | .fold => Prod.fst <$> localConstantFolding t ops

/-- Any sequence of passes. -/
def runPasses (t : Target) (passes : List Pass) (ops : List Oper) : Run (List Oper) :=
  passes.foldlM (Pass.apply t) ops

end OpenImpact.Lopti
