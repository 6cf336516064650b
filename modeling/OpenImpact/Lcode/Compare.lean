import OpenImpact.Library.Halt
import Mathlib.Data.Nat.Bitwise

/-!
# Comparison operations

The part of an Lcode operation the integer-range analysis reads, and the helpers of `l_compare.c` and
`l_predicate.c` it calls: which operand is the register, what the constant is, and how a completer
changes when the operands trade places.

Completers stay numbers, as in `l_opc.h`: `inversePredCompleter` and the unsigned flag work on their
bits. What a comparison *means* is stated separately, in `Oper.eval`, on the bit patterns of the two
operands; nothing in the analysis uses it.
-/

namespace OpenImpact

abbrev ITuint8 := UInt8

/-! ### Completers -/

def lcmpComEQ : ITuint8 := 0x02
def lcmpComNE : ITuint8 := 0x03
def lcmpComGT : ITuint8 := 0x04
def lcmpComLE : ITuint8 := 0x05
def lcmpComGE : ITuint8 := 0x06
def lcmpComLT : ITuint8 := 0x07

/-- The completers that compare, as against those that test a bit. -/
def orderCompleters : List ITuint8 :=
  [lcmpComEQ, lcmpComNE, lcmpComGT, lcmpComLE, lcmpComGE, lcmpComLT]

/-- `L_inverse_pred_completer`: the completer after the operands trade places. -/
def inversePredCompleter (com : ITuint8) : ITuint8 :=
  if lcmpComGT ≤ com ∧ com ≤ lcmpComLT then com ^^^ 0x03 else com

/-- `L_is_ctype_signed_direct`. -/
def isCtypeSignedDirect (ctype : ITuint8) : Bool := (ctype &&& 0x40) != 0

/-! ### Operations -/

/-- The opcodes the range code tells apart. -/
inductive Opcode where
  | cmp
  | cmpF
  | br
  | brF
  | other
  deriving DecidableEq, Repr

/-- An operand as the comparison helpers classify it. -/
inductive Operand where
  /-- A missing operand. -/
  | null
  /-- `L_is_variable`: a register or a macro. -/
  | var (id : ℕ)
  /-- `L_is_int_constant`: an integer immediate with its 64 bits. -/
  | intImmed (i : BitVec 64)
  | other
  deriving DecidableEq, Repr

namespace Operand

/-- `L_is_variable`. -/
def isVariable : Operand → Bool
  | var _ => true
  | _ => false

/-- `L_is_int_constant`. -/
def isIntConstant : Operand → Bool
  | intImmed _ => true
  | _ => false

end Operand

/-- `L_Oper`, restricted to the fields a comparison has. -/
structure Oper where
  opc : Opcode
  /-- `com[0]`, the ctype the comparison is made at. -/
  com0 : ITuint8
  /-- `com[1]`, the completer. -/
  com1 : ITuint8
  src0 : Operand
  src1 : Operand
  deriving DecidableEq, Repr

namespace Oper

/-- `L_general_pred_comparison_opcode`. -/
def generalPredComparisonOpcode (oper : Oper) : Bool := oper.opc == .cmp || oper.opc == .cmpF

/-- `L_cond_branch_opcode`. -/
def condBranchOpcode (oper : Oper) : Bool := oper.opc == .br || oper.opc == .brF

/-- `L_inequality_compare`. -/
def inequalityCompare (oper : Oper) : Bool :=
  oper.com1 == lcmpComGT || oper.com1 == lcmpComLE || oper.com1 == lcmpComGE ||
    oper.com1 == lcmpComLT

/-- The operand test shared by `L_is_reg_const_pred_compare` and `L_is_reg_const_cond_br`. -/
def isRegConst (oper : Oper) : Bool :=
  if oper.src0.isVariable then oper.src1.isIntConstant
  else oper.src1.isVariable && oper.src0.isIntConstant

/-- `L_is_reg_const_pred_compare`. -/
def isRegConstPredCompare (oper : Oper) : Bool :=
  oper.generalPredComparisonOpcode && oper.isRegConst

/-- `L_is_reg_const_cond_br`. -/
def isRegConstCondBr (oper : Oper) : Bool := oper.condBranchOpcode && oper.isRegConst

/-- `L_pred_compare_const_first`. -/
def predCompareConstFirst (oper : Oper) : Run Bool :=
  match oper.src0, oper.src1 with
  | .var _, .intImmed _ => .ok false
  | .intImmed _, .var _ => .ok true
  | _, _ => .error (.punt "L_pred_compare_const_first called on non reg-const compare")

/-- `L_pred_compare_get_int_const`. -/
def predCompareGetIntConst (oper : Oper) : Run (BitVec 64) :=
  match oper.src0, oper.src1 with
  | .var _, .intImmed i => .ok i
  | .intImmed i, .var _ => .ok i
  | _, _ => .error (.punt "L_pred_compare_get_int_const called on non reg-const compare")

/-! ### Meaning -/

/-- The relation a completer names, on two bit patterns of one width. -/
def completerHolds (signed : Bool) (com : ITuint8) {w : ℕ} (a b : BitVec w) : Bool :=
  if com = lcmpComEQ then a == b
  else if com = lcmpComNE then a != b
  else if com = lcmpComGT then if signed then b.slt a else b.ult a
  else if com = lcmpComGE then if signed then b.sle a else b.ule a
  else if com = lcmpComLT then if signed then a.slt b else a.ult b
  else if com = lcmpComLE then if signed then a.sle b else a.ule b
  else false

/-- The bits an operand supplies when the variable holds `v`. -/
def Operand.bits (w v : ℕ) : Operand → BitVec w
  | .var _ => BitVec.ofNat w v
  | .intImmed i => i.setWidth w
  | _ => 0

/-- The outcome of the comparison at width `w` when its register holds the value `v`. -/
def eval (w : ℕ) (oper : Oper) (v : ℕ) : Bool :=
  completerHolds (isCtypeSignedDirect oper.com0) oper.com1
    (Operand.bits w v oper.src0) (Operand.bits w v oper.src1)

/-- A register-versus-constant comparison with one of the six order completers. -/
def IsRegConstIntCompare (oper : Oper) : Prop :=
  (oper.isRegConstPredCompare ∨ oper.isRegConstCondBr) ∧ oper.com1 ∈ orderCompleters

instance (oper : Oper) : Decidable oper.IsRegConstIntCompare :=
  inferInstanceAs (Decidable (_ ∧ _))

end Oper

end OpenImpact
