import OpenImpact.Lcode.Oper
import OpenImpact.Library.Halt

/-!
# Strength reduction

`L_local_strength_reduction` of `l_local_opti.c` with `L_create_divide_operations` and
`L_create_rem_operations` of `l_opti_functions.c`. A signed division or remainder by `2^k` or `-2^k` is
replaced by shifts and masks that round toward zero.
-/

namespace OpenImpact.Lopti

open Lcode

/-! ### Powers of two -/

/-- `p2`. -/
def p2 (i : ℕ) : BitVec 64 := 1#64 <<< i

/-- `C_log2`; a negative `n` is compared as an unsigned number. -/
def cLog2 (n : BitVec 64) : BitVec 64 :=
  match (List.range 32).find? fun i ↦ n ≤ p2 i with
  | some i => BitVec.ofNat 64 i
  | none => -1

/-- `C_is_log2`. -/
def cIsLog2 (n : BitVec 64) : Bool :=
  match (List.range 32).find? fun i ↦ decide (n = p2 i) || decide (n < p2 i) with
  | some i => decide (n = p2 i)
  | none => false

/-- `ITicast`, of a 64-bit `ITintmax`. -/
def itIcast (v : BitVec 64) : Run (BitVec 32) :=
  if v = (v.setWidth 32).signExtend 64 then .ok (v.setWidth 32)
  else .error (.punt ": %d with value %llx")

/-- `L_is_power_of_two`. -/
def isPowerOfTwo : Operand → Bool
  | .int i => cIsLog2 ((i.setWidth 32).signExtend 64)
  | _ => false

/-- `L_abs_is_power_of_two`. -/
def absIsPowerOfTwo : Operand → Bool
  | .int i => cIsLog2 ((i.setWidth 32).abs.signExtend 64)
  | _ => false

/-! ### The source's functions -/

/-- The counters of `L_fn`. -/
structure FnIds where
  maxRegId : ℕ
  maxOperId : ℕ

/-- `L_create_new_op`, with the `k`-th new id, and its operands. -/
def newOp (fn : FnIds) (k : ℕ) (opc : Opcode) (dest : ℕ) (src : List Operand) : Oper :=
  ⟨fn.maxOperId + k, opc, some dest, src, none⟩

/-- `L_create_divide_operations`, for the operation with this destination and these sources: what it
inserts and the counters after it. -/
def createDivideOperations (fn : FnIds) (dest : ℕ) (b : Operand) (c : BitVec 64) :
    Run (List Oper × FnIds) := do
  let t₀ := fn.maxRegId + 1
  let t₁ := fn.maxRegId + 2
  let t₂ := fn.maxRegId + 3
  let t₃ := fn.maxRegId + 4
  let cValue := if c.toInt > 0 then c else -c
  let bOper := if c.toInt > 0 then newOp fn 1 .mov t₀ [b] else newOp fn 1 .sub t₀ [.int 0, b]
  let v ← itIcast cValue
  .ok ([bOper,
    newOp fn 2 .asr t₁ [.reg t₀, .int 31],
    newOp fn 3 .and t₂ [.reg t₁, .int (cValue - 1)],
    newOp fn 4 .add t₃ [.reg t₀, .reg t₂],
    newOp fn 5 .asr dest [.reg t₃, .int (cLog2 (v.signExtend 64))]], ⟨t₃, fn.maxOperId + 5⟩)

/-- `L_create_rem_operations`. -/
def createRemOperations (fn : FnIds) (dest : ℕ) (b : Operand) (c : BitVec 64) : List Oper × FnIds :=
  let t₁ := fn.maxRegId + 1
  let t₂ := fn.maxRegId + 2
  let t₃ := fn.maxRegId + 3
  let t₄ := fn.maxRegId + 4
  let cValue := if c.toInt > 0 then c else -c
  ([newOp fn 1 .asr t₁ [b, .int 31],
    newOp fn 2 .and t₂ [.reg t₁, .int (cValue - 1)],
    newOp fn 3 .add t₃ [b, .reg t₂],
    newOp fn 4 .and t₄ [.reg t₃, .int (-cValue)],
    newOp fn 5 .sub dest [b, .reg t₄]], ⟨t₄, fn.maxOperId + 5⟩)

/-- `L_nullify_operation`. -/
def nullifyOperation (o : Oper) : Oper :=
  ⟨o.id, .noOp, none, [], none⟩

/-- One operation of the loop over the multiplications. -/
def reduceMul (o : Oper) : Run Oper :=
  match o.opc, o.src with
  | .mul, [a, b] | .mulU, [a, b] =>
    -- the constant goes to the second source
    let (a, b) := if isPowerOfTwo a then (b, a) else (a, b)
    match b with
    | .int i => if isPowerOfTwo b then do
        let val ← itIcast i
        .ok { o with opc := .lsl, src := [a, .int (cLog2 (val.signExtend 64))] }
      else .ok o
    | _ => .ok o
  | _, _ => .ok o

/-- One operation of the loop over the divisions: what stands in its place. -/
def reduceDiv (signedDivRem : Bool) (fn : FnIds) (o : Oper) : Run (List Oper × FnIds) :=
  match o.opc, o.dest, o.src with
  | .div, some dest, [b, .int c] =>
    if absIsPowerOfTwo (.int c) && signedDivRem then do
      let (ops, fn) ← createDivideOperations fn dest b c
      .ok (ops ++ [nullifyOperation o], fn)
    else .ok ([o], fn)
  | .divU, _, [b, .int c] =>
    if absIsPowerOfTwo (.int c) then do
      let val ← itIcast c
      .ok ([{ o with opc := .lsr, src := [b, .int (cLog2 (val.signExtend 64))] }], fn)
    else .ok ([o], fn)
  | _, _, _ => .ok ([o], fn)

/-- One operation of the loop over the remainders: what stands in its place. -/
def reduceRem (signedDivRem : Bool) (fn : FnIds) (o : Oper) : Run (List Oper × FnIds) :=
  match o.opc, o.dest, o.src with
  | .rem, some dest, [b, .int c] =>
    if absIsPowerOfTwo (.int c) && signedDivRem then
      let (ops, fn) := createRemOperations fn dest b c
      .ok (ops ++ [nullifyOperation o], fn)
    else .ok ([o], fn)
  | .remU, _, [b, .int c] =>
    if absIsPowerOfTwo (.int c) then do
      let val ← itIcast c
      .ok ([{ o with opc := .and, src := [b, .int ((val - 1).signExtend 64)] }], fn)
    else .ok ([o], fn)
  | _, _, _ => .ok ([o], fn)

/-- A loop over the block that replaces its operations one by one. -/
def replaceAll (f : FnIds → Oper → Run (List Oper × FnIds)) : FnIds → List Oper →
    Run (List Oper × FnIds)
  | fn, [] => .ok ([], fn)
  | fn, o :: os => do
    let (ops, fn) ← f fn o
    let (rest, fn) ← replaceAll f fn os
    .ok (ops ++ rest, fn)

/-- `L_local_strength_reduction`, with `Lopti_do_local_strength_red_for_signed_div_rem`. -/
def localStrengthReduction (signedDivRem : Bool) (fn : FnIds) (ops : List Oper) :
    Run (List Oper × FnIds) := do
  let ops ← ops.mapM reduceMul
  let (ops, fn) ← replaceAll (reduceDiv signedDivRem) fn ops
  replaceAll (reduceRem signedDivRem) fn ops

end OpenImpact.Lopti
