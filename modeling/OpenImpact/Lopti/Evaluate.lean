import OpenImpact.Foundation.ShiftDiv
import OpenImpact.Lcode.Oper
import OpenImpact.Library.Halt

/-!
# Evaluation of operations with constant operands

`L_evaluate_int_arithmetic` of `l_evaluate.c` computes on 64-bit values. Its lower half is what the
machine computes from the lower halves of the operands, except where an operation looks at an upper half:
a division, a logical right shift and a test for zero need operands that are extended from 32 bits
(`setWidth_evaluate`).
-/

namespace OpenImpact.Lopti

open Foundation Lcode

/-! ### The source's functions -/

/-- What `L_evaluate_int_arithmetic` says of sources that are no integer constants. -/
def evaluatePunt : Opcode → String
  | .add => "L_evaluate_int_arithmetic ADD: src1 or src2 is not an int"
  | .addU => "L_evaluate_int_arithmetic ADDU:src1 or src2 is not an int"
  | .sub => "L_evaluate_int_arithmetic SUB: src1 or src2 is not an int"
  | .subU => "L_evaluate_int_arithmetic SUBU:src1 or src2 is not an int"
  | .mul => "L_evaluate_int_arithmetic MUL: src1 or src2 is not an int"
  | .mulU => "L_evaluate_int_arithmetic MULU:src1 or src2 is not an int"
  | .div => "L_evaluate_int_arithmetic DIV: src1 or src2 is not an int"
  | .divU => "L_evaluate_int_arithmetic DIVU:src1 or src2 is not an int"
  | .rem => "L_evaluate_int_arithmetic REM: src1 or src2 is not an int"
  | .remU => "L_evaluate_int_arithmetic REMU:src1 or src2 is not an int"
  | .or => "L_evaluate_int_arithmetic OR: src1 or src2 is not an int"
  | .and => "L_evaluate_int_arithmetic AND: src1 or src2 is not an int"
  | .xor => "L_evaluate_int_arithmetic XOR: src1 or src2 is not an int"
  | .nor => "L_evaluate_int_arithmetic NOR: src1 or src2 is not an int"
  | .nand => "L_evaluate_int_arithmetic NAND: src1 or src2 is not an int"
  | .nxor => "L_evaluate_int_arithmetic NXOR: src1 or src2 is not an int"
  | .orNot => "L_evaluate_int_arithmetic OR_NOT: s1 or s2 not an int"
  | .andNot => "L_evaluate_int_arithmetic AND_NOT: s1 or s2 not an int"
  | .orCompl => "L_evaluate_int_arithmetic OR_COMPL: s1 or s2 not an int"
  | .andCompl => "L_evaluate_int_arithmetic AND_COMPL: s1 or s2 not an int"
  | .lsl => "L_evaluate_int_arithmetic LSL: src1 or src2 is not an int"
  | .lsr => "L_evaluate_int_arithmetic LSR: src1 or src2 is not an int"
  | .asr => "L_evaluate_int_arithmetic ASR: src1 or src2 is not an int"
  | .sxtC => "L_evaluate_int_arithmetic SXT_C: src1 is not an int"
  | .sxtC2 => "L_evaluate_int_arithmetic SXT_C2: src1 is not an int"
  | .sxtI => "L_evaluate_int_arithmetic SXT_I: src1 is not an int"
  | .zxtC => "L_evaluate_int_arithmetic ZXT_C: src1 is not an int"
  | .zxtC2 => "L_evaluate_int_arithmetic ZXT_C2: src1 is not an int"
  | .zxtI => "L_evaluate_int_arithmetic ZXT_I: src1 is not an int"
  | .noOp | .mov | .other _ => "L_evaluate_int_arithmetic: improper opcode sent"

/-- What `L_no_exceptions` says of a divisor that is no integer constant. -/
def noExceptionsPunt : Opcode → String
  | .div => "L_no_exceptions DIV:  src2 is not an integer"
  | .divU => "L_no_exceptions DIVU:  src2 is not an integer"
  | .rem => "L_no_exceptions REM:  src2 is not an integer"
  | .remU => "L_no_exceptions REMU:  src2 is not an integer"
  | _ => "L_no_exceptions: illegal opcode passed into"

/-- `value.i` of a source that must be an integer constant. -/
def intValue (msg : String) : Option Operand → Run (BitVec 64)
  | some (.int i) => .ok i
  | _ => .error (.punt msg)

/-- A division of two `ITintmax` values. -/
def divide64 (f : BitVec 64 → BitVec 64 → BitVec 64) (s₁ s₂ : BitVec 64) : Run (BitVec 64) :=
  if s₂ = 0 then .error .overflow else .ok (f s₁ s₂)

/-- `!s`. -/
def logicalNot (s : BitVec 64) : BitVec 64 :=
  if s = 0 then 1 else 0

/-- The value that one of the cases of `L_evaluate_int_arithmetic` returns for `s1` and `s2`. -/
def evaluateCase : Opcode → BitVec 64 → BitVec 64 → Run (BitVec 64)
  | .add, s₁, s₂ => .ok (s₁ + s₂)
  | .addU, s₁, s₂ => .ok (s₁ + s₂)
  | .sub, s₁, s₂ => .ok (s₁ - s₂)
  | .subU, s₁, s₂ => .ok (s₁ - s₂)
  | .mul, s₁, s₂ => .ok (s₁ * s₂)
  | .mulU, s₁, s₂ => .ok (s₁ * s₂)
  | .div, s₁, s₂ => divide64 BitVec.sdiv s₁ s₂
  | .divU, s₁, s₂ => divide64 BitVec.udiv s₁ s₂
  | .rem, s₁, s₂ => divide64 BitVec.srem s₁ s₂
  | .remU, s₁, s₂ => divide64 BitVec.umod s₁ s₂
  | .or, s₁, s₂ => .ok (s₁ ||| s₂)
  | .and, s₁, s₂ => .ok (s₁ &&& s₂)
  | .xor, s₁, s₂ => .ok (s₁ ^^^ s₂)
  | .nor, s₁, s₂ => .ok (~~~(s₁ ||| s₂))
  | .nand, s₁, s₂ => .ok (~~~(s₁ &&& s₂))
  | .nxor, s₁, s₂ => .ok (~~~(s₁ ^^^ s₂))
  | .orNot, s₁, s₂ => .ok (s₁ ||| logicalNot s₂)
  | .andNot, s₁, s₂ => .ok (s₁ &&& logicalNot s₂)
  | .orCompl, s₁, s₂ => .ok (s₁ ||| ~~~s₂)
  | .andCompl, s₁, s₂ => .ok (s₁ &&& ~~~s₂)
  | .lsl, s₁, s₂ => .ok (s₁ <<< s₂.toNat)
  | .lsr, s₁, s₂ => .ok (s₁ >>> s₂.toNat)
  -- return ((int)s1 >> (int)s2)
  | .asr, s₁, s₂ => .ok (((s₁.setWidth 32).sshiftRight (s₂.setWidth 32).toNat).signExtend 64)
  | .sxtC, s₁, _ => .ok ((s₁.setWidth 8).signExtend 64)
  | .sxtC2, s₁, _ => .ok ((s₁.setWidth 16).signExtend 64)
  | .sxtI, s₁, _ => .ok ((s₁.setWidth 32).signExtend 64)
  | .zxtC, s₁, _ => .ok ((s₁.setWidth 8).setWidth 64)
  | .zxtC2, s₁, _ => .ok ((s₁.setWidth 16).setWidth 64)
  | .zxtI, s₁, _ => .ok ((s₁.setWidth 32).setWidth 64)
  | opc, _, _ => .error (.punt (evaluatePunt opc))

/-- The operations with one source. -/
def isUnary : Opcode → Bool
  | .mov | .sxtC | .sxtC2 | .sxtI | .zxtC | .zxtC2 | .zxtI => true
  | _ => false

/-- `L_evaluate_int_arithmetic`. -/
def evaluateIntArithmetic (o : Oper) : Run (BitVec 64) := do
  let s₁ ← intValue (evaluatePunt o.opc) o.src[0]?
  let s₂ ← if isUnary o.opc then .ok 0 else intValue (evaluatePunt o.opc) o.src[1]?
  evaluateCase o.opc s₁ s₂

/-- `L_no_exceptions`. -/
def noExceptions (o : Oper) : Run Bool :=
  match o.opc with
  | .div | .divU | .rem | .remU => do
    let s₂ ← intValue (noExceptionsPunt o.opc) o.src[1]?
    .ok (s₂ ≠ 0)
  | _ => .ok true

/-! ### The lower half -/

/-- A 64-bit value that is a 32-bit `int`. -/
def IsSigned (s : BitVec 64) : Prop :=
  (s.setWidth 32).signExtend 64 = s

/-- A 64-bit value that is a 32-bit `unsigned int`. -/
def IsUnsigned (s : BitVec 64) : Prop :=
  (s.setWidth 32).setWidth 64 = s

instance (s : BitVec 64) : Decidable (IsSigned s) := inferInstanceAs (Decidable (_ = _))

instance (s : BitVec 64) : Decidable (IsUnsigned s) := inferInstanceAs (Decidable (_ = _))

/-- The operands are ones that the operation takes for what the machine has. -/
def OperandsFit : Opcode → BitVec 64 → BitVec 64 → Prop
  | .div, s₁, s₂ => IsSigned s₁ ∧ IsSigned s₂
  | .rem, s₁, s₂ => IsSigned s₁ ∧ IsSigned s₂
  | .divU, s₁, s₂ => IsUnsigned s₁ ∧ IsUnsigned s₂
  | .remU, s₁, s₂ => IsUnsigned s₁ ∧ IsUnsigned s₂
  | .lsr, s₁, s₂ => IsUnsigned s₁ ∧ IsUnsigned s₂
  | .lsl, _, s₂ => IsUnsigned s₂
  | .orNot, _, s₂ => s₂.setWidth 32 = 0 → s₂ = 0
  | .andNot, _, s₂ => s₂.setWidth 32 = 0 → s₂ = 0
  | _, _, _ => True

instance (opc : Opcode) (s₁ s₂ : BitVec 64) : Decidable (OperandsFit opc s₁ s₂) := by
  unfold OperandsFit
  split <;> infer_instance

theorem IsSigned.toInt_eq {s : BitVec 64} (h : IsSigned s) : s.toInt = (s.setWidth 32).toInt := by
  conv_lhs => rw [← h]
  exact BitVec.toInt_signExtend_of_le (by decide)

theorem IsUnsigned.toNat_eq {s : BitVec 64} (h : IsUnsigned s) : s.toNat = (s.setWidth 32).toNat := by
  conv_lhs => rw [← h]
  rw [BitVec.toNat_setWidth, Nat.mod_eq_of_lt]
  exact (s.setWidth 32).isLt.trans (by decide)

theorem setWidth_ofInt (x : ℤ) : (BitVec.ofInt 64 x).setWidth 32 = BitVec.ofInt 32 x := by
  refine BitVec.eq_of_toInt_eq ?_
  rw [toInt_setWidth_bmod _ (by decide), BitVec.toInt_ofInt, BitVec.toInt_ofInt]
  exact Int.bmod_bmod_of_dvd (by decide)

theorem setWidth_signExtend {w : ℕ} (x : BitVec w) (hw : w ≤ 32) :
    (x.signExtend 64).setWidth 32 = x.signExtend 32 := by
  rw [← BitVec.ofInt_toInt (x := x.signExtend 64), setWidth_ofInt,
    BitVec.toInt_signExtend_of_le (by omega), ← BitVec.toInt_signExtend_of_le hw, BitVec.ofInt_toInt]

theorem setWidth_sub (x y : BitVec 64) :
    (x - y).setWidth 32 = x.setWidth 32 - y.setWidth 32 := by
  rw [eq_sub_iff_add_eq, ← BitVec.setWidth_add _ _ (by decide), sub_add_cancel]

theorem setWidth_logicalNot {s : BitVec 64} (h : s.setWidth 32 = 0 → s = 0) :
    (logicalNot s).setWidth 32 = if s.setWidth 32 = 0 then 1 else 0 := by
  rw [logicalNot]
  split_ifs with h₁ h₂ h₂
  · rfl
  · exact absurd (by rw [h₁]; rfl) h₂
  · exact absurd (h h₂) h₁
  · rfl

theorem setWidth_sdiv {s₁ s₂ : BitVec 64} (h₁ : IsSigned s₁) (h₂ : IsSigned s₂) :
    (s₁.sdiv s₂).setWidth 32 = (s₁.setWidth 32).sdiv (s₂.setWidth 32) := by
  have hdiv {w : ℕ} (x y : BitVec w) : x.sdiv y = BitVec.ofInt w (x.toInt.tdiv y.toInt) := by
    refine BitVec.eq_of_toInt_eq ?_
    rw [BitVec.toInt_sdiv, BitVec.toInt_ofInt]
  rw [hdiv, hdiv, setWidth_ofInt, h₁.toInt_eq, h₂.toInt_eq]

theorem setWidth_srem {s₁ s₂ : BitVec 64} (h₁ : IsSigned s₁) (h₂ : IsSigned s₂) :
    (s₁.srem s₂).setWidth 32 = (s₁.setWidth 32).srem (s₂.setWidth 32) := by
  have hrem {w : ℕ} (x y : BitVec w) : x.srem y = BitVec.ofInt w (x.toInt.tmod y.toInt) := by
    rw [← BitVec.toInt_srem, BitVec.ofInt_toInt]
  rw [hrem, hrem, setWidth_ofInt, h₁.toInt_eq, h₂.toInt_eq]

theorem setWidth_udiv {s₁ s₂ : BitVec 64} (h₁ : IsUnsigned s₁) (h₂ : IsUnsigned s₂) :
    (s₁.udiv s₂).setWidth 32 = (s₁.setWidth 32).udiv (s₂.setWidth 32) := by
  refine BitVec.eq_of_toNat_eq ?_
  rw [BitVec.toNat_setWidth, BitVec.udiv_eq, BitVec.udiv_eq, BitVec.toNat_udiv, BitVec.toNat_udiv,
    h₁.toNat_eq, h₂.toNat_eq]
  exact Nat.mod_eq_of_lt ((Nat.div_le_self _ _).trans_lt (s₁.setWidth 32).isLt)

theorem setWidth_umod {s₁ s₂ : BitVec 64} (h₁ : IsUnsigned s₁) (h₂ : IsUnsigned s₂) :
    (s₁.umod s₂).setWidth 32 = (s₁.setWidth 32).umod (s₂.setWidth 32) := by
  refine BitVec.eq_of_toNat_eq ?_
  rw [BitVec.toNat_setWidth, BitVec.umod_eq, BitVec.umod_eq, BitVec.toNat_umod, BitVec.toNat_umod,
    h₁.toNat_eq, h₂.toNat_eq]
  exact Nat.mod_eq_of_lt ((Nat.mod_le _ _).trans_lt (s₁.setWidth 32).isLt)

theorem setWidth_ushiftRight {s₁ : BitVec 64} (h₁ : IsUnsigned s₁) (n : ℕ) :
    (s₁ >>> n).setWidth 32 = s₁.setWidth 32 >>> n := by
  refine BitVec.eq_of_toNat_eq ?_
  rw [BitVec.toNat_setWidth, BitVec.toNat_ushiftRight, BitVec.toNat_ushiftRight, h₁.toNat_eq]
  exact Nat.mod_eq_of_lt ((Nat.shiftRight_le _ _).trans_lt (s₁.setWidth 32).isLt)

theorem divide64_eq_ok {f : BitVec 64 → BitVec 64 → BitVec 64} {s₁ s₂ v : BitVec 64}
    (h : divide64 f s₁ s₂ = .ok v) : f s₁ s₂ = v := by
  rw [divide64] at h
  split_ifs at h
  exact Except.ok.inj h

/-- **Folding agrees with the machine** on operands that fit. -/
theorem setWidth_evaluate {opc : Opcode} {s₁ s₂ v : BitVec 64} (hfit : OperandsFit opc s₁ s₂)
    (h : evaluateCase opc s₁ s₂ = .ok v) :
    v.setWidth 32 = opc.eval (s₁.setWidth 32) (s₂.setWidth 32) := by
  have hle : 32 ≤ 64 := by decide
  cases opc with
  | add | addU => cases h; exact BitVec.setWidth_add _ _ hle
  | sub | subU => cases h; exact setWidth_sub _ _
  | mul | mulU => cases h; exact BitVec.setWidth_mul _ _ hle
  | div => rw [← divide64_eq_ok h]; exact setWidth_sdiv hfit.1 hfit.2
  | rem => rw [← divide64_eq_ok h]; exact setWidth_srem hfit.1 hfit.2
  | divU => rw [← divide64_eq_ok h]; exact setWidth_udiv hfit.1 hfit.2
  | remU => rw [← divide64_eq_ok h]; exact setWidth_umod hfit.1 hfit.2
  | or => cases h; exact BitVec.setWidth_or
  | and => cases h; exact BitVec.setWidth_and
  | xor => cases h; exact BitVec.setWidth_xor
  | nor | nand | nxor | orCompl | andCompl => cases h; simp [Opcode.eval]
  | orNot | andNot => cases h; simp [Opcode.eval, setWidth_logicalNot hfit]
  | lsl => cases h; rw [BitVec.setWidth_shiftLeft_of_le hle, IsUnsigned.toNat_eq hfit]; rfl
  | lsr => cases h; rw [setWidth_ushiftRight hfit.1, hfit.2.toNat_eq]; rfl
  | asr => cases h; exact (setWidth_signExtend _ le_rfl).trans (BitVec.signExtend_eq _)
  | sxtC | sxtC2 => cases h; rw [setWidth_signExtend _ (by decide)]; simp [Opcode.eval]
  | sxtI => cases h; exact (setWidth_signExtend _ le_rfl).trans (BitVec.signExtend_eq _)
  | zxtC | zxtC2 | zxtI => cases h; simp [Opcode.eval]
  | noOp | mov | other => cases h

end OpenImpact.Lopti
