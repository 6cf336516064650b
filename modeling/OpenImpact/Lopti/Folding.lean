import OpenImpact.Lopti.ConstPropCorrect
import OpenImpact.Lopti.Queries

/-!
# Folding with identities

`L_local_constant_folding` with all its patterns. Before an operation with constant operands is
evaluated, a sum with zero, a product with zero or one, a quotient by one and the like become moves, and
`x - x`, `x / x` and `x % x` become constants. What an identity leaves is what the machine computes
(`eval_foldIdentity`), but for `x / x`, which becomes one even where `x` is zero.
-/

namespace OpenImpact.Lopti

open Foundation Lcode

/-! ### The source's functions -/

/-- An integer constant with the value. -/
def isIntValue (v : BitVec 64) : Option Operand → Bool
  | some (.int i) => i = v
  | _ => false

/-- `L_is_zero`. -/
def isZero : Option Operand → Bool := isIntValue 0

/-- `L_is_one`. -/
def isOne : Option Operand → Bool := isIntValue 1

/-- `L_is_int_neg_one`. -/
def isIntNegOne : Option Operand → Bool := isIntValue (-1)

/-- `L_add_opcode`. -/
def addOpcode (opc : Opcode) : Bool := opc = .add || opc = .addU

/-- `L_sub_opcode`. -/
def subOpcode (opc : Opcode) : Bool := opc = .sub || opc = .subU

/-- `L_mul_opcode`. -/
def mulOpcode (opc : Opcode) : Bool := opc = .mul || opc = .mulU

/-- `L_div_opcode`. -/
def divOpcode (opc : Opcode) : Bool := opc = .div || opc = .divU

/-- `L_int_rem_opcode`. -/
def intRemOpcode (opc : Opcode) : Bool := opc = .rem || opc = .remU

/-- `L_shift_opcode`. -/
def shiftOpcode (opc : Opcode) : Bool := opc = .lsl || opc = .lsr || opc = .asr

/-- What an operation is folded to. -/
inductive Folded where
  | source (i : ℕ)
  | zero
  | one
  deriving DecidableEq

/-- The patterns no. 1 to 7. -/
def foldIdentity (o : Oper) : Option Folded :=
  if isZero o.src[0]? && (addOpcode o.opc || o.opc = .or || o.opc = .xor) then some (.source 1)
  else if isZero o.src[0]? && (mulOpcode o.opc || divOpcode o.opc || shiftOpcode o.opc ||
    intRemOpcode o.opc || o.opc = .and) then some .zero
  else if isZero o.src[1]? && (addOpcode o.opc || subOpcode o.opc || shiftOpcode o.opc ||
    o.opc = .or || o.opc = .xor) then some (.source 0)
  else if isZero o.src[1]? && (mulOpcode o.opc || o.opc = .and) then some .zero
  else if isOne o.src[0]? && mulOpcode o.opc then some (.source 1)
  else if isOne o.src[1]? && (mulOpcode o.opc || divOpcode o.opc) then some (.source 0)
  else if isOne o.src[1]? && intRemOpcode o.opc then some .zero
  else if o.src[0]? = o.src[1]? && (subOpcode o.opc || intRemOpcode o.opc) then some .zero
  else if o.src[0]? = o.src[1]? && divOpcode o.opc then some .one
  else none

/-- The last pattern: a conjunction with `-1`. -/
def foldAnd (o : Oper) : Option Folded :=
  if o.opc = .and && isIntNegOne o.src[0]? then some (.source 1)
  else if o.opc = .and && isIntNegOne o.src[1]? then some (.source 0)
  else none

section Pass

variable (t : Target)

/-- `L_convert_to_move_of_zero` and `L_convert_to_move_of_one`. -/
def convertToMoveOf (volatilePunt nullPunt : String) (v : BitVec 64) (o : Oper) : Run Oper :=
  if t.volatile o.id then .error (.punt volatilePunt)
  else if o.dest = none then .error (.punt nullPunt)
  else convertToMove t o (.int v)

/-- `L_convert_to_move_of_zero`. -/
def convertToMoveOfZero (o : Oper) : Run Oper :=
  convertToMoveOf t "L_convert_to_move_of_zero: Cannot convert volatile oper %d"
    "L_convert_to_move_of_zero: oper, dest may not be NULL" 0 o

/-- `L_convert_to_move_of_one`. -/
def convertToMoveOfOne (o : Oper) : Run Oper :=
  convertToMoveOf t "L_convert_to_move_of_one: Cannot convert volatile oper %d"
    "L_convert_to_move_of_one: oper, dest may not be NULL" 1 o

/-- The operation becomes a move. -/
def foldTo (o : Oper) : Folded → Run Oper
  | .zero => convertToMoveOfZero t o
  | .one => convertToMoveOfOne t o
  | .source i =>
    match o.src[i]? with
    | some a => convertToMove t o a
    | none =>
      .error (.punt (if t.volatile o.id then "L_convert_to_move: Cannot convert volatile oper %d"
        else "L_convert_to_move: oper, dest, src may not be NULL"))

/-- `L_local_constant_folding` for one operation. -/
def foldOperation (o : Oper) : Run (Oper × ℕ) :=
  if t.doNotConstantFold o.id then .ok (o, 0)
  else
    match foldIdentity o with
    | some f => do
      let o' ← foldTo t o f
      .ok (o', 1)
    | none => do
      let (o', change) ← foldOper t o
      if change ≠ 0 then .ok (o', change)
      else
        match foldAnd o with
        | some f => do
          let o' ← foldTo t o f
          .ok (o', 1)
        | none => .ok (o, 0)

/-- `L_local_constant_folding`: the block and the number of changes. -/
def foldBlock : List Oper → Run (List Oper × ℕ)
  | [] => .ok ([], 0)
  | o :: os => do
    let (o, change) ← foldOperation t o
    let (os, change') ← foldBlock os
    .ok (o :: os, change + change')

end Pass

/-! ### What the patterns compute -/

section Values

variable {opc : Opcode} {a b : BitVec 32}

/-- Zero is neutral on the left. -/
theorem eval_zero_left (h : (addOpcode opc || opc = .or || opc = .xor) = true) : opc.eval 0 b = b := by
  cases opc <;> cases h <;> simp [Opcode.eval]

/-- Zero on the left gives zero. -/
theorem eval_zero_left_zero
    (h : (mulOpcode opc || divOpcode opc || shiftOpcode opc || intRemOpcode opc || opc = .and) = true) :
    opc.eval 0 b = 0 := by
  cases opc <;> cases h <;> simp [Opcode.eval]

/-- Zero is neutral on the right. -/
theorem eval_zero_right
    (h : (addOpcode opc || subOpcode opc || shiftOpcode opc || opc = .or || opc = .xor) = true) :
    opc.eval a 0 = a := by
  cases opc <;> cases h <;> simp [Opcode.eval]

/-- Zero on the right gives zero. -/
theorem eval_zero_right_zero (h : (mulOpcode opc || opc = .and) = true) : opc.eval a 0 = 0 := by
  cases opc <;> cases h <;> simp [Opcode.eval]

/-- One is neutral on the left of a product. -/
theorem eval_one_left (h : mulOpcode opc = true) : opc.eval 1 b = b := by
  cases opc <;> cases h <;> simp [Opcode.eval]

/-- And on the right of a product or a quotient. -/
theorem eval_one_right (h : (mulOpcode opc || divOpcode opc) = true) : opc.eval a 1 = a := by
  cases opc <;> cases h <;> simp [Opcode.eval]

/-- A remainder by one is zero. -/
theorem eval_one_right_zero (h : intRemOpcode opc = true) : opc.eval a 1 = 0 := by
  cases opc <;> cases h <;> simp [Opcode.eval]

/-- The difference with itself is zero, and so is the remainder. -/
theorem eval_self_zero (h : (subOpcode opc || intRemOpcode opc) = true) : opc.eval a a = 0 := by
  cases opc <;> cases h <;> simp [Opcode.eval]

/-- The quotient with itself is one, except for zero. -/
theorem eval_self_one (h : divOpcode opc = true) (ha : a ≠ 0) : opc.eval a a = 1 := by
  cases opc <;> cases h <;> simpa [Opcode.eval] using ha

/-- The value of what an operation with the sources' values is folded to. -/
def Folded.value (vals : List (BitVec 32)) : Folded → BitVec 32
  | .source i => vals.getD i 0
  | .zero => 0
  | .one => 1

variable {m : Machine} {regs : Regs} {o : Oper} {i : ℕ}

/-- The value of a source, with zero for a missing one. -/
theorem srcValues_getD_eq (o : Oper) (i : ℕ) :
    (o.srcValues m regs).getD i 0 = (o.src[i]?.map (Operand.value m regs)).getD 0 := by
  rw [Oper.srcValues, List.getD_eq_getElem?_getD, List.getElem?_map]

/-- A source that is tested for an integer has its value. -/
theorem value_of_isIntValue {v : BitVec 64} (h : isIntValue v o.src[i]? = true) :
    (o.srcValues m regs).getD i 0 = v.setWidth 32 := by
  rw [srcValues_getD_eq]
  cases hsrc : o.src[i]? with
  | none => rw [hsrc] at h; cases h
  | some a =>
    rw [hsrc] at h
    cases a with
    | int i => rw [of_decide_eq_true h]; rfl
    | reg r => cases h
    | label l => cases h

/-- A source that is tested for zero is zero. -/
theorem value_of_isZero (h : isZero o.src[i]? = true) : (o.srcValues m regs).getD i 0 = 0 :=
  value_of_isIntValue h

/-- One that is tested for one is one. -/
theorem value_of_isOne (h : isOne o.src[i]? = true) : (o.srcValues m regs).getD i 0 = 1 :=
  value_of_isIntValue h

/-- One that is tested for -1 has all bits set. -/
theorem value_of_isIntNegOne (h : isIntNegOne o.src[i]? = true) :
    (o.srcValues m regs).getD i 0 = BitVec.allOnes 32 :=
  value_of_isIntValue h

/-- Equal sources have equal values. -/
theorem value_of_same {j : ℕ} (h : decide (o.src[i]? = o.src[j]?) = true) :
    (o.srcValues m regs).getD i 0 = (o.srcValues m regs).getD j 0 := by
  rw [srcValues_getD_eq, srcValues_getD_eq, of_decide_eq_true h]

/-- One test of a cascade. -/
theorem eq_or_of_ite {c : Prop} [Decidable c] {f f' : Folded} {x : Option Folded}
    (h : (if c then some f' else x) = some f) : c ∧ f' = f ∨ x = some f := by
  split_ifs at h with hc
  · exact .inl ⟨hc, Option.some.inj h⟩
  · exact .inr h

/-- **An identity leaves the value**, if no zero is divided by itself. -/
theorem eval_foldIdentity {f : Folded} (h : foldIdentity o = some f)
    (hdiv : f = .one → (o.srcValues m regs).getD 0 0 ≠ 0) :
    o.opc.eval ((o.srcValues m regs).getD 0 0) ((o.srcValues m regs).getD 1 0) =
      f.value (o.srcValues m regs) := by
  rw [foldIdentity] at h
  rcases eq_or_of_ite h with ⟨hcond, rfl⟩ | h
  · obtain ⟨hsrc, hopc⟩ := Bool.and_eq_true_iff.1 hcond
    rw [value_of_isZero hsrc, eval_zero_left hopc]
    rfl
  rcases eq_or_of_ite h with ⟨hcond, rfl⟩ | h
  · obtain ⟨hsrc, hopc⟩ := Bool.and_eq_true_iff.1 hcond
    rw [value_of_isZero hsrc, eval_zero_left_zero hopc]
    rfl
  rcases eq_or_of_ite h with ⟨hcond, rfl⟩ | h
  · obtain ⟨hsrc, hopc⟩ := Bool.and_eq_true_iff.1 hcond
    rw [value_of_isZero hsrc, eval_zero_right hopc]
    rfl
  rcases eq_or_of_ite h with ⟨hcond, rfl⟩ | h
  · obtain ⟨hsrc, hopc⟩ := Bool.and_eq_true_iff.1 hcond
    rw [value_of_isZero hsrc, eval_zero_right_zero hopc]
    rfl
  rcases eq_or_of_ite h with ⟨hcond, rfl⟩ | h
  · obtain ⟨hsrc, hopc⟩ := Bool.and_eq_true_iff.1 hcond
    rw [value_of_isOne hsrc, eval_one_left hopc]
    rfl
  rcases eq_or_of_ite h with ⟨hcond, rfl⟩ | h
  · obtain ⟨hsrc, hopc⟩ := Bool.and_eq_true_iff.1 hcond
    rw [value_of_isOne hsrc, eval_one_right hopc]
    rfl
  rcases eq_or_of_ite h with ⟨hcond, rfl⟩ | h
  · obtain ⟨hsrc, hopc⟩ := Bool.and_eq_true_iff.1 hcond
    rw [value_of_isOne hsrc, eval_one_right_zero hopc]
    rfl
  rcases eq_or_of_ite h with ⟨hcond, rfl⟩ | h
  · obtain ⟨hsrc, hopc⟩ := Bool.and_eq_true_iff.1 hcond
    rw [value_of_same hsrc, eval_self_zero hopc]
    rfl
  rcases eq_or_of_ite h with ⟨hcond, rfl⟩ | h
  · obtain ⟨hsrc, hopc⟩ := Bool.and_eq_true_iff.1 hcond
    rw [← value_of_same hsrc, eval_self_one hopc (hdiv rfl)]
    rfl
  · cases h

/-- The result that an `and` is folded to. -/
theorem eval_foldAnd {f : Folded} (h : foldAnd o = some f) :
    o.opc.eval ((o.srcValues m regs).getD 0 0) ((o.srcValues m regs).getD 1 0) =
      f.value (o.srcValues m regs) := by
  rw [foldAnd] at h
  split_ifs at h with h1 h2 <;> cases h
  · obtain ⟨hopc, hsrc⟩ := Bool.and_eq_true_iff.1 h1
    rw [of_decide_eq_true hopc, value_of_isIntNegOne hsrc]
    exact BitVec.allOnes_and
  · obtain ⟨hopc, hsrc⟩ := Bool.and_eq_true_iff.1 h2
    rw [of_decide_eq_true hopc, value_of_isIntNegOne hsrc]
    exact BitVec.and_allOnes

/-- Only a division by itself leaves a one. -/
theorem divOpcode_of_foldIdentity (h : foldIdentity o = some .one) : divOpcode o.opc = true := by
  rw [foldIdentity] at h
  -- the patterns before it leave something else
  iterate 8 replace h := (eq_or_of_ite h).resolve_left fun hcond ↦ by cases hcond.2
  rcases eq_or_of_ite h with ⟨hcond, -⟩ | h
  · exact (Bool.and_eq_true_iff.1 hcond).2
  · cases h

/-- Only integer operations are folded. -/
theorem isOther_of_foldIdentity {f : Folded} (h : foldIdentity o = some f) : o.opc.isOther = false := by
  cases hopc : o.opc with
  | other n =>
    simp [foldIdentity, hopc, addOpcode, subOpcode, mulOpcode, divOpcode, intRemOpcode,
      shiftOpcode] at h
  | _ => rfl

/-- What is folded is an opcode of the table. -/
theorem isOther_of_foldAnd {f : Folded} (h : foldAnd o = some f) : o.opc.isOther = false := by
  cases hopc : o.opc with
  | other n => simp [foldAnd, hopc] at h
  | _ => rfl

end Values

/-! ### The pass -/

section Blocks

variable {μ : Type} {t : LocalTarget} {w : World μ} {g : ℕ → Bool} {s : State μ} {o o' : Oper}
  {ops : List Oper} {arith : ℕ → ℕ × ℕ → List (BitVec 32) → BitVec 32}

/-- The move that an operation becomes. -/
theorem convertToMove_eq {t : Target} {a : Operand} (h : convertToMove t o a = .ok o') :
    o' = { o with opc := .mov, src := [a] } := by
  rw [convertToMove] at h
  split_ifs at h
  cases h
  rfl

/-- The move of a constant that an operation becomes. -/
theorem convertToMoveOf_eq {t : Target} {volatilePunt nullPunt : String} {v : BitVec 64}
    (h : convertToMoveOf t volatilePunt nullPunt v o = .ok o') :
    o' = { o with opc := .mov, src := [.int v] } := by
  rw [convertToMoveOf] at h
  split_ifs at h
  exact convertToMove_eq h

/-- The move has the value. -/
theorem foldTo_eq {t : Target} {f : Folded} (h : foldTo t o f = .ok o') :
    ∃ a, o' = { o with opc := .mov, src := [a] } ∧
      ∀ m regs, a.value m regs = f.value (o.srcValues m regs) := by
  cases f with
  | zero => exact ⟨_, convertToMoveOf_eq h, fun _ _ ↦ rfl⟩
  | one => exact ⟨_, convertToMoveOf_eq h, fun _ _ ↦ rfl⟩
  | source i =>
    rw [foldTo] at h
    split at h
    · rename_i a hsrc
      refine ⟨a, convertToMove_eq h, fun m regs ↦ ?_⟩
      rw [Folded.value, srcValues_getD_eq, hsrc]
      rfl
    · cases h

/-- An operation that runs does not divide zero by itself. -/
def DivisorFits (w : World μ) (s : State μ) (o : Oper) : Prop :=
  foldIdentity o = some .one → o.guard s.regs = true →
    (o.srcValues (w.machine s.mem) s.regs).getD 0 0 ≠ 0

/-- An operation that becomes a move or a constant does the same step if its value is the same. -/
theorem step_foldTo {f : Folded} (hother : o.opc.isOther = false)
    (hvalue : o.guard s.regs = true →
      o.opc.eval ((o.srcValues (w.machine s.mem) s.regs).getD 0 0)
        ((o.srcValues (w.machine s.mem) s.regs).getD 1 0) =
          f.value (o.srcValues (w.machine s.mem) s.regs))
    (h : foldTo t.toTarget o f = .ok o') : o'.step w s = o.step w s := by
  obtain ⟨a, rfl, ha⟩ := foldTo_eq h
  refine step_of_result rfl rfl hother rfl fun hrun ↦ ?_
  have hresult : o.result (w.machine s.mem) s.regs =
      o.opc.eval ((o.srcValues (w.machine s.mem) s.regs).getD 0 0)
        ((o.srcValues (w.machine s.mem) s.regs).getD 1 0) := by
    rw [Oper.result]
    split
    · rename_i hopc
      rw [hopc] at hother
      cases hother
    · rfl
  rw [hresult, hvalue hrun]
  exact ha _ _

/-- The case of constant operands leaves an operation or turns it into a move. -/
theorem foldOper_cases {t : Target} {change : ℕ} (h : foldOper t o = .ok (o', change)) :
    o' = o ∨ o.opc.isOther = false ∧ ∃ src, o' = { o with opc := .mov, src := src } := by
  rw [foldOper] at h
  split_ifs at h with hattr harith
  · cases h; exact .inl rfl
  · rw [Bool.and_eq_true] at harith
    obtain ⟨ok, -, h⟩ := Run.bind_eq_ok.1 h
    split_ifs at h
    · obtain ⟨imval, -, h⟩ := Run.bind_eq_ok.1 h
      obtain ⟨o₁, hconv, h⟩ := Run.bind_eq_ok.1 h
      cases h
      rw [convertToMove] at hconv
      split_ifs at hconv
      cases hconv
      refine .inr ⟨?_, _, rfl⟩
      cases hopc : o.opc with
      | other n => rw [hopc] at harith; cases harith.1
      | _ => rfl
    · cases h; exact .inl rfl
  · cases h; exact .inl rfl

/-- **Folding an operation keeps its step** where it fits. -/
theorem step_foldOper {change : ℕ} (hfit : FoldFits t.toTarget o)
    (h : foldOper t.toTarget o = .ok (o', change)) : o'.step w s = o.step w s := by
  rcases foldOper_cases h with rfl | ⟨hother, src, rfl⟩
  · rfl
  · rw [step_of_not_isOther hother, step_of_not_isOther rfl, exec_foldOper hfit h]

/-- Folding leaves an operation, or turns an integer operation into a move. -/
theorem foldOperation_cases {t : Target} {c : ℕ} (h : foldOperation t o = .ok (o', c)) :
    o' = o ∨ o.opc.isOther = false ∧ ∃ src, o' = { o with opc := .mov, src := src } := by
  rw [foldOperation] at h
  split_ifs at h
  · cases h; exact .inl rfl
  · split at h
    · rename_i f hf
      obtain ⟨o₁, hto, h⟩ := Run.bind_eq_ok.1 h
      cases h
      obtain ⟨a, rfl, -⟩ := foldTo_eq hto
      exact .inr ⟨isOther_of_foldIdentity hf, _, rfl⟩
    · obtain ⟨⟨o₁, change⟩, hfold, h⟩ := Run.bind_eq_ok.1 h
      dsimp only at h
      split_ifs at h
      · cases h
        exact foldOper_cases hfold
      · split at h
        · rename_i f hf
          obtain ⟨o₂, hto, h⟩ := Run.bind_eq_ok.1 h
          cases h
          obtain ⟨a, rfl, -⟩ := foldTo_eq hto
          exact .inr ⟨isOther_of_foldAnd hf, _, rfl⟩
        · cases h; exact .inl rfl

/-- **Folding an operation** whose operands fit does not change what it does. -/
theorem step_foldOperation {c : ℕ} (hfit : foldIdentity o = none → FoldFits t.toTarget o)
    (hdiv : DivisorFits w s o) (h : foldOperation t.toTarget o = .ok (o', c)) :
    o'.step w s = o.step w s := by
  rw [foldOperation] at h
  split_ifs at h
  · cases h; rfl
  · split at h
    · rename_i f hf
      obtain ⟨o₁, hto, h⟩ := Run.bind_eq_ok.1 h
      cases h
      exact step_foldTo (isOther_of_foldIdentity hf)
        (fun hrun ↦ eval_foldIdentity hf fun hone ↦ hdiv (hone ▸ hf) hrun) hto
    · rename_i hnone
      obtain ⟨⟨o₁, change⟩, hfold, h⟩ := Run.bind_eq_ok.1 h
      dsimp only at h
      split_ifs at h
      · cases h
        exact step_foldOper (hfit hnone) hfold
      · split at h
        · rename_i f hf
          obtain ⟨o₂, hto, h⟩ := Run.bind_eq_ok.1 h
          cases h
          exact step_foldTo (isOther_of_foldAnd hf) (fun _ ↦ eval_foldAnd hf) hto
        · cases h; rfl

/-- **Folding keeps what a block does**, guards and calls included, if its operands fit and no zero is
divided by itself. -/
theorem rewrites_foldBlock {ops' : List Oper} {c : ℕ}
    (hmeets : Meets (Oper.step w) (Runs t w g arith) ops s)
    (hfit : ∀ o ∈ ops, foldIdentity o = none → FoldFits t.toTarget o)
    (hdiv : Meets (Oper.step w) (DivisorFits w) ops s)
    (h : foldBlock t.toTarget ops = .ok (ops', c)) :
    Rewrites (Oper.step w) (Runs t w g arith) ops ops' s := by
  induction ops generalizing ops' c s with
  | nil => cases h; exact Rewrites.refl trivial
  | cons o ops ih =>
    obtain ⟨ho, hops⟩ := hmeets
    obtain ⟨hfit, hfits⟩ := List.forall_mem_cons.1 hfit
    obtain ⟨⟨o', c₁⟩, hfold, h⟩ := Run.bind_eq_ok.1 h
    obtain ⟨⟨os', c₂⟩, hrest, h⟩ := Run.bind_eq_ok.1 h
    cases h
    refine (ih hops hfits hdiv.2 hrest).replace ?_ (step_foldOperation hfit hdiv.1 hfold)
    rcases foldOperation_cases hfold with rfl | ⟨-, src, rfl⟩
    · exact ho
    · exact ⟨ho.1, operOk_of_not_isOther rfl⟩

end Blocks

end OpenImpact.Lopti
