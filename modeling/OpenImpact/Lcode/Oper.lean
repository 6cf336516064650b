import Mathlib.Data.BitVec
import Mathlib.Data.List.Basic
import Mathlib.Logic.Function.Basic

/-!
# Straight-line code on the 32-bit machine

The operations of a control block, as far as the integer passes look at them, and what they do to the
registers of a machine whose native type is `int`. An immediate is a 64-bit value in the compiler, and
the machine sees its lower half.
-/

namespace OpenImpact.Lcode

/-- `opc`, for integer operations. -/
inductive Opcode where
  | noOp | mov
  | add | addU | sub | subU | mul | mulU | div | divU | rem | remU
  | or | and | xor | nor | nand | nxor | orNot | andNot | orCompl | andCompl
  | lsl | lsr | asr
  | sxtC | sxtC2 | sxtI | zxtC | zxtC2 | zxtI
  | other (opc : ℕ)
  deriving DecidableEq

/-- `L_Operand`: an integer constant with its `value.i`, a register, or the constants that are no numbers
(`L_OPERAND_LABEL`, `L_OPERAND_STRING` and `L_OPERAND_CB`). -/
inductive Operand where
  | int (i : BitVec 64)
  | reg (r : ℕ)
  | label (l : ℕ)
  deriving DecidableEq

/-- `L_Oper`, with at most one destination. -/
structure Oper where
  id : ℕ
  opc : Opcode
  dest : Option ℕ
  src : List Operand
  pred : Option ℕ
  deriving DecidableEq

/-- `L_is_int_constant`. -/
def Operand.isIntConstant : Operand → Bool
  | .int _ => true
  | _ => false

/-! ### The machine -/

/-- General and predicate registers. -/
structure Regs where
  reg : ℕ → BitVec 32
  pred : ℕ → Bool

/-- A register is written. -/
def Regs.set (s : Regs) (d : ℕ) (v : BitVec 32) : Regs where
  reg := Function.update s.reg d v
  pred := s.pred

@[simp] theorem Regs.set_pred (s : Regs) (d : ℕ) (v : BitVec 32) : (s.set d v).pred = s.pred := rfl

@[simp] theorem Regs.set_reg_self (s : Regs) (d : ℕ) (v : BitVec 32) : (s.set d v).reg d = v := by
  simp [Regs.set]

theorem Regs.set_reg_of_ne (s : Regs) {d r : ℕ} (v : BitVec 32) (h : r ≠ d) :
    (s.set d v).reg r = s.reg r := by
  simp [Regs.set, h]

/-- What a block does not fix: the values of labels, and what its other operations write to their
destination and to predicate registers, by their `id`. -/
structure Machine where
  label : ℕ → BitVec 32
  other : ℕ → List (BitVec 32) → BitVec 32
  preds : ℕ → List (BitVec 32) → (ℕ → Bool) → ℕ → Bool

/-- A machine for blocks in which no label and no other operation occurs. -/
def plainMachine : Machine := ⟨fun _ ↦ 0, fun _ _ ↦ 0, fun _ _ p ↦ p⟩

/-- The value of an operand. -/
def Operand.value (m : Machine) (s : Regs) : Operand → BitVec 32
  | .int i => i.setWidth 32
  | .reg r => s.reg r
  | .label l => m.label l

/-- What an operation computes from its first two sources. -/
def Opcode.eval : Opcode → BitVec 32 → BitVec 32 → BitVec 32
  | .noOp, _, _ => 0
  | .mov, a, _ => a
  | .add, a, b => a + b
  | .addU, a, b => a + b
  | .sub, a, b => a - b
  | .subU, a, b => a - b
  | .mul, a, b => a * b
  | .mulU, a, b => a * b
  | .div, a, b => a.sdiv b
  | .divU, a, b => a.udiv b
  | .rem, a, b => a.srem b
  | .remU, a, b => a.umod b
  | .or, a, b => a ||| b
  | .and, a, b => a &&& b
  | .xor, a, b => a ^^^ b
  | .nor, a, b => ~~~(a ||| b)
  | .nand, a, b => ~~~(a &&& b)
  | .nxor, a, b => ~~~(a ^^^ b)
  | .orNot, a, b => a ||| if b = 0 then 1 else 0
  | .andNot, a, b => a &&& if b = 0 then 1 else 0
  | .orCompl, a, b => a ||| ~~~b
  | .andCompl, a, b => a &&& ~~~b
  | .lsl, a, b => a <<< b.toNat
  | .lsr, a, b => a >>> b.toNat
  | .asr, a, b => a.sshiftRight b.toNat
  | .sxtC, a, _ => (a.setWidth 8).signExtend 32
  | .sxtC2, a, _ => (a.setWidth 16).signExtend 32
  | .sxtI, a, _ => a
  | .zxtC, a, _ => (a.setWidth 8).setWidth 32
  | .zxtC2, a, _ => (a.setWidth 16).setWidth 32
  | .zxtI, a, _ => a
  | .other _, _, _ => 0

/-- The values of an operation's sources. -/
def Oper.srcValues (m : Machine) (s : Regs) (o : Oper) : List (BitVec 32) :=
  o.src.map (Operand.value m s)

/-- What an operation writes to its destination. -/
def Oper.result (m : Machine) (s : Regs) (o : Oper) : BitVec 32 :=
  match o.opc with
  | .other _ => m.other o.id (o.srcValues m s)
  | opc => opc.eval ((o.srcValues m s).getD 0 0) ((o.srcValues m s).getD 1 0)

/-- Whether the guard holds. -/
def Oper.guard (s : Regs) (o : Oper) : Bool :=
  match o.pred with
  | none => true
  | some p => s.pred p

/-- One operation. -/
def Oper.exec (m : Machine) (s : Regs) (o : Oper) : Regs where
  reg :=
    match o.dest with
    | none => s.reg
    | some d => if o.guard s then Function.update s.reg d (o.result m s) else s.reg
  pred :=
    match o.opc with
    | .other _ => m.preds o.id (o.srcValues m s) s.pred
    | _ => s.pred

/-- The operations of a block in turn. -/
def run (m : Machine) (ops : List Oper) (s : Regs) : Regs :=
  ops.foldl (Oper.exec m) s

section Exec

variable (m : Machine) (s : Regs) (o : Oper) (ops : List Oper)

@[simp] theorem run_nil : run m [] s = s := rfl

@[simp] theorem run_cons : run m (o :: ops) s = run m ops (o.exec m s) := rfl

theorem run_append (ops' : List Oper) : run m (ops ++ ops') s = run m ops' (run m ops s) :=
  List.foldl_append

@[simp] theorem value_int (i : BitVec 64) : (Operand.int i).value m s = i.setWidth 32 := rfl

@[simp] theorem value_reg (r : ℕ) : (Operand.reg r).value m s = s.reg r := rfl

@[simp] theorem value_label (l : ℕ) : (Operand.label l).value m s = m.label l := rfl

variable {m s o} {d : ℕ}

/-- What is not the destination stays. -/
theorem exec_reg_of_dest_ne (h : o.dest ≠ some d) : (o.exec m s).reg d = s.reg d := by
  cases hd : o.dest with
  | none => simp only [Oper.exec, hd]
  | some d' =>
    simp only [Oper.exec, hd]
    split_ifs
    · exact Function.update_of_ne (fun heq ↦ h (hd.trans (congrArg some heq.symm))) _ _
    · rfl

theorem exec_reg_dest (h : o.dest = some d) (hguard : o.guard s = true) :
    (o.exec m s).reg d = o.result m s := by
  simp only [Oper.exec, h, hguard, if_true, Function.update_self]

theorem exec_reg_of_guard (hguard : o.guard s = false) : (o.exec m s).reg d = s.reg d := by
  cases hd : o.dest <;> simp [Oper.exec, hd, hguard]

theorem guard_of_pred (h : o.pred = none) : o.guard s = true := by
  rw [Oper.guard, h]

end Exec

end OpenImpact.Lcode

namespace OpenImpact.Lopti

export Lcode (Opcode Operand Oper)

end OpenImpact.Lopti
