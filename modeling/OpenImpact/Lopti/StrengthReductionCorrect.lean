import OpenImpact.Foundation.ShiftDiv
import OpenImpact.Lopti.StrengthReduction

/-!
# What the operations for a division compute

The inserted operations round toward zero, also by a negative divisor, except for the one dividend that
has no negation. They have no guard: what the division leaves alone where its guard is false, they
overwrite (`reduce_right_iff`).

`localStrengthReduction_right_iff` is the result about the pass, in any block: what it puts in place
of a division or remainder by a constant whose size is a power of two is right from every state
exactly if the operation is `Safe`. It rests on `reduce_computes`, what the inserted operations
compute, over `Foundation.ShiftDiv`. Floats and the order of the inserted operations with others in
the block are left out.
-/

namespace OpenImpact.Lopti

open Foundation Lcode

/-! ### The constants -/

/-- A divisor that is replaced, by `2^k` or `-2^k`. -/
structure IsDivisor (c : BitVec 64) (k : ℕ) : Prop where
  lt : k < 31
  toInt : c.toInt = 2 ^ k ∨ c.toInt = -2 ^ k

/-- The constants that the test accepts are the powers below `2 ^ 32`. -/
theorem exists_of_cIsLog2 {n : BitVec 64} (h : cIsLog2 n = true) : ∃ k < 32, n = p2 k := by
  rw [cIsLog2] at h
  split at h
  · rename_i k hk
    exact ⟨k, List.mem_range.1 (List.mem_of_find?_eq_some hk), of_decide_eq_true h⟩
  · cases h

/-- Below `2 ^ 32` a power is positive as a signed value. -/
theorem toInt_p2 : ∀ k < 32, (p2 k).toInt = 2 ^ k := by decide

/-- What `L_abs_is_power_of_two` accepts among the 32-bit constants. -/
theorem exists_isDivisor {c : BitVec 64} (hc : -2 ^ 31 ≤ c.toInt ∧ c.toInt < 2 ^ 31)
    (h : absIsPowerOfTwo (.int c) = true) : ∃ k, IsDivisor c k := by
  obtain ⟨k, hk, heq⟩ := exists_of_cIsLog2 h
  have hlow : (c.setWidth 32).toInt = c.toInt := by
    rw [toInt_setWidth_bmod c (by decide)]
    exact Int.bmod_eq_of_le_mul_two (by omega) (by omega)
  have habs : (c.setWidth 32).abs.toInt = 2 ^ k := by
    rw [← toInt_p2 k hk, ← heq, BitVec.toInt_signExtend_of_le (by decide)]
  have hpos : (0 : ℤ) < 2 ^ k := by positivity
  rw [BitVec.toInt_abs_eq_natAbs, hlow] at habs
  split_ifs at habs with hmin
  · rw [← habs] at hpos
    exact absurd hpos (by decide)
  · refine ⟨k, ?_, by omega⟩
    by_contra hge
    obtain rfl : k = 31 := by omega
    have hne : c.toInt ≠ -2 ^ 31 := fun h ↦ hmin (by
      rw [← BitVec.ofInt_toInt (x := c.setWidth 32), hlow, h]
      rfl)
    omega

/-- The absolute value of the divisor, as both functions compute it. -/
theorem IsDivisor.abs {c : BitVec 64} {k : ℕ} (h : IsDivisor c k) :
    (if c.toInt > 0 then c else -c) = p2 k := by
  have hpos : (0 : ℤ) < 2 ^ k := by positivity
  have hlt : (2 : ℤ) ^ k < 2 ^ 31 := pow_lt_pow_right₀ (by decide) h.lt
  refine BitVec.eq_of_toInt_eq ?_
  rw [toInt_p2 k (by have := h.lt; omega)]
  obtain hc | hc := h.toInt
  · rw [if_pos (by omega), hc]
  · rw [if_neg (by omega), BitVec.toInt_neg, hc, neg_neg]
    exact Int.bmod_eq_of_le_mul_two (by omega) (by omega)

/-! ### The inserted operations -/

/-- What a sequence of operations writes to one register; the others that the function had, and the
predicates, stay. -/
structure Computes (m : Machine) (fn : FnIds) (ops : List Oper) (dest : ℕ)
    (q : Regs → BitVec 32) : Prop where
  result : ∀ s, (run m ops s).reg dest = q s
  frame : ∀ s, ∀ r ≤ fn.maxRegId, r ≠ dest → (run m ops s).reg r = s.reg r
  pred : ∀ s, (run m ops s).pred = s.pred

/-- The registers of an operation are registers of the function. -/
structure InFn (fn : FnIds) (dest : ℕ) (b : Operand) : Prop where
  dest : dest ≤ fn.maxRegId
  src : ∀ r, b = .reg r → r ≤ fn.maxRegId

section Insert

variable {m : Machine} {fn : FnIds} {dest k : ℕ} {b : Operand} {c : BitVec 64}

/-- A new register is not read by an operand of the function. -/
theorem InFn.value_set (h : InFn fn dest b) (s : Regs) {d : ℕ} (v : BitVec 32)
    (hd : fn.maxRegId < d) : b.value m (s.set d v) = b.value m s := by
  cases b with
  | int i => rfl
  | label l => rfl
  | reg r =>
    have := h.src r rfl
    exact s.set_reg_of_ne v (by omega)

@[simp] theorem newOp_opc (j d : ℕ) (opc : Opcode) (src : List Operand) :
    (newOp fn j opc d src).opc = opc := rfl

theorem exec_mov (s : Regs) (j d : ℕ) (a : Operand) :
    (newOp fn j .mov d [a]).exec m s = s.set d (a.value m s) := rfl

theorem exec_sub (s : Regs) (j d : ℕ) (a b : Operand) :
    (newOp fn j .sub d [a, b]).exec m s = s.set d (a.value m s - b.value m s) := rfl

theorem exec_add (s : Regs) (j d : ℕ) (a b : Operand) :
    (newOp fn j .add d [a, b]).exec m s = s.set d (a.value m s + b.value m s) := rfl

theorem exec_and (s : Regs) (j d : ℕ) (a b : Operand) :
    (newOp fn j .and d [a, b]).exec m s = s.set d (a.value m s &&& b.value m s) := rfl

theorem exec_asr (s : Regs) (j d : ℕ) (a b : Operand) :
    (newOp fn j .asr d [a, b]).exec m s =
      s.set d ((a.value m s).sshiftRight (b.value m s).toNat) := rfl

/-- The mask of a power, as it is cut to a word. -/
theorem mask_value : ∀ k < 31, (p2 k - 1).setWidth 32 = BitVec.ofNat 32 (2 ^ k - 1) := by decide

/-- The negated power, as it is cut to a word. -/
theorem neg_value : ∀ k < 31, (-p2 k).setWidth 32 = -BitVec.ofNat 32 (2 ^ k) := by decide

/-- The shift for a power, as it is cut to a word. -/
theorem shift_value : ∀ k < 31, ((cLog2 (p2 k)).setWidth 32).toNat = k := by decide +kernel

/-- A power is stored in an `int` operand as it is. -/
theorem itIcast_p2 : ∀ k < 31, itIcast (p2 k) = .ok ((p2 k).setWidth 32) := by decide +kernel

/-- So its value is read back. -/
theorem signExtend_p2 : ∀ k < 31, ((p2 k).setWidth 32).signExtend 64 = p2 k := by decide

/-- The dividend, negated for a negative divisor. -/
def dividend (c : BitVec 64) (x : BitVec 32) : BitVec 32 :=
  if c.toInt > 0 then x else -x

/-- Writes to new registers and to the destination. -/
theorem Computes.of_sets {ops : List Oper} {q : Regs → BitVec 32}
    {w : Regs → List (ℕ × BitVec 32)} (hnew : ∀ s, ∀ p ∈ w s, fn.maxRegId < p.1)
    (hrun : ∀ s, run m ops s = ((w s).foldl (fun s p ↦ s.set p.1 p.2) s).set dest (q s)) :
    Computes m fn ops dest q := by
  have hfold (l : List (ℕ × BitVec 32)) (hl : ∀ p ∈ l, fn.maxRegId < p.1) (s : Regs) :
      (∀ r ≤ fn.maxRegId, (l.foldl (fun s p ↦ s.set p.1 p.2) s).reg r = s.reg r) ∧
        (l.foldl (fun s p ↦ s.set p.1 p.2) s).pred = s.pred := by
    induction l generalizing s with
    | nil => exact ⟨fun r _ ↦ rfl, rfl⟩
    | cons p l ih =>
      obtain ⟨hreg, hpred⟩ := ih (fun p hp ↦ hl p (List.mem_cons_of_mem _ hp)) (s.set p.1 p.2)
      refine ⟨fun r hr ↦ (hreg r hr).trans (s.set_reg_of_ne p.2 ?_), hpred⟩
      have := hl p List.mem_cons_self
      omega
  refine ⟨fun s ↦ by rw [hrun, Regs.set_reg_self], fun s r hr hne ↦ ?_, fun s ↦ ?_⟩
  · rw [hrun, Regs.set_reg_of_ne _ _ hne]
    exact (hfold _ (hnew s) s).1 r hr
  · rw [hrun]
    exact (hfold _ (hnew s) s).2

/-- **`L_create_divide_operations`.** -/
theorem createDivideOperations_computes (m : Machine) (h : IsDivisor c k) :
    ∃ ops fn', createDivideOperations fn dest b c = .ok (ops, fn') ∧
      Computes m fn ops dest fun s ↦ (roundUp (dividend c (b.value m s)) k).sshiftRight k := by
  have hlt := h.lt
  refine ⟨_, _, by rw [createDivideOperations]; simp only [h.abs, itIcast_p2 k hlt]; rfl, ?_⟩
  rw [signExtend_p2 k hlt]
  refine .of_sets (w := fun s ↦
    let x := dividend c (b.value m s)
    let round := x.sshiftRight 31 &&& BitVec.ofNat 32 (2 ^ k - 1)
    [(fn.maxRegId + 1, x), (fn.maxRegId + 2, x.sshiftRight 31), (fn.maxRegId + 3, round),
      (fn.maxRegId + 4, x + round)]) (fun s p hp ↦ ?_) fun s ↦ ?_
  · simp only [List.mem_cons, List.not_mem_nil, or_false] at hp
    rcases hp with rfl | rfl | rfl | rfl <;> dsimp only <;> omega
  · have hfirst : (if c.toInt > 0 then newOp fn 1 .mov (fn.maxRegId + 1) [b]
        else newOp fn 1 .sub (fn.maxRegId + 1) [.int 0, b]).exec m s =
          s.set (fn.maxRegId + 1) (dividend c (b.value m s)) := by
      rw [dividend]
      split_ifs
      · exact exec_mov s 1 _ b
      · rw [exec_sub]
        exact congrArg _ (zero_sub _)
    rw [run_cons, hfirst]
    simp only [run_cons, run_nil, exec_asr, exec_and, exec_add, value_reg, value_int,
      Regs.set_reg_self, ne_eq, Nat.add_left_cancel_iff, Nat.reduceEqDiff,
      not_false_eq_true, Regs.set_reg_of_ne, List.foldl_cons, List.foldl_nil, mask_value k hlt,
      shift_value k hlt]
    rw [roundUp, ← sshiftRight_and]
    rfl

/-- **`L_create_rem_operations`.** -/
theorem createRemOperations_computes (m : Machine) (h : IsDivisor c k) (hfn : InFn fn dest b) :
    Computes m fn (createRemOperations fn dest b c).1 dest fun s ↦
      b.value m s - (roundUp (b.value m s) k &&& -BitVec.ofNat 32 (2 ^ k)) := by
  have hlt := h.lt
  rw [createRemOperations]
  simp only [h.abs]
  refine .of_sets (w := fun s ↦
    let x := b.value m s
    let round := x.sshiftRight 31 &&& BitVec.ofNat 32 (2 ^ k - 1)
    [(fn.maxRegId + 1, x.sshiftRight 31), (fn.maxRegId + 2, round), (fn.maxRegId + 3, x + round),
      (fn.maxRegId + 4, (x + round) &&& -BitVec.ofNat 32 (2 ^ k))]) (fun s p hp ↦ ?_) fun s ↦ ?_
  · simp only [List.mem_cons, List.not_mem_nil, or_false] at hp
    rcases hp with rfl | rfl | rfl | rfl <;> dsimp only <;> omega
  · have hvalue (s : Regs) {d : ℕ} (v : BitVec 32) (hd : fn.maxRegId < d) :
        b.value m (s.set d v) = b.value m s := hfn.value_set s v hd
    simp only [run_cons, run_nil, exec_asr, exec_and, exec_add, exec_sub, value_reg, value_int,
      Regs.set_reg_self, List.foldl_cons, List.foldl_nil, mask_value k hlt, neg_value k hlt, hvalue,
      Nat.lt_add_right_iff_pos, Nat.ofNat_pos, Nat.one_pos]
    rw [roundUp, ← sshiftRight_and]
    rfl

end Insert

/-! ### When the replacement is right -/

/-- A signed `DIV` or `REM` by a constant. -/
structure DivRem where
  id : ℕ
  rem : Bool
  dest : ℕ
  b : Operand
  c : BitVec 64
  pred : Option ℕ

namespace DivRem

/-- The operation. -/
def oper (o : DivRem) : Oper :=
  ⟨o.id, if o.rem then .rem else .div, some o.dest, [o.b, .int o.c], o.pred⟩

/-- What stands in its place. -/
def reduce (fn : FnIds) (o : DivRem) : Run (List Oper × FnIds) :=
  if o.rem then reduceRem true fn o.oper else reduceDiv true fn o.oper

/-- The quotient, truncated toward zero, or the remainder. -/
def wanted (o : DivRem) (x : BitVec 32) : ℤ :=
  if o.rem then x.toInt - o.c.toInt * x.toInt.tdiv o.c.toInt else x.toInt.tdiv o.c.toInt

/-- The division does not overflow. -/
def InRange (o : DivRem) (x : BitVec 32) : Prop :=
  -2 ^ 31 ≤ x.toInt.tdiv o.c.toInt ∧ x.toInt.tdiv o.c.toInt < 2 ^ 31

instance (o : DivRem) (x : BitVec 32) : Decidable (o.InRange x) :=
  inferInstanceAs (Decidable (_ ∧ _))

/-- From a state the operations leave the destination as the division would. -/
def RightAt (m : Machine) (o : DivRem) (ops : List Oper) (s : Regs) : Prop :=
  (run m ops s).reg o.dest =
    if o.oper.guard s then BitVec.ofInt 32 (o.wanted (o.b.value m s)) else s.reg o.dest

/-- What the inserted operations write to the destination, from the dividend. -/
def computed (o : DivRem) (k : ℕ) (x : BitVec 32) : BitVec 32 :=
  if o.rem then x - (roundUp x k &&& -BitVec.ofNat 32 (2 ^ k))
  else (roundUp (dividend o.c x) k).sshiftRight k

/-- The operation is unguarded, or changes nothing; and a negative divisor other than -1 never meets the
dividend that has no negation. -/
def Safe (m : Machine) (o : DivRem) : Prop :=
  (o.pred = none ∨ o.rem = false ∧ o.c.toInt = 1 ∧ o.b = .reg o.dest) ∧
    (o.rem = false → o.c.toInt < -1 → ∀ s, o.b.value m s ≠ BitVec.intMin 32)

variable {m : Machine} {fn : FnIds} {o : DivRem} {k : ℕ}

/-- The operations that replace a division or a remainder compute what `computed` says, when they are
made. -/
theorem reduce_computes (m : Machine) (hpow : absIsPowerOfTwo (.int o.c) = true)
    (h : IsDivisor o.c k) (hfn : InFn fn o.dest o.b) :
    ∃ ops fn', o.reduce fn = .ok (ops, fn') ∧
      Computes m fn ops o.dest fun s ↦ o.computed k (o.b.value m s) := by
  have hnull {ops : List Oper} {q : Regs → BitVec 32} (hops : Computes m fn ops o.dest q) :
      Computes m fn (ops ++ [nullifyOperation o.oper]) o.dest q := by
    have hrun (s : Regs) : run m (ops ++ [nullifyOperation o.oper]) s = run m ops s := by
      rw [run_append]
      rfl
    exact ⟨fun s ↦ hrun s ▸ hops.result s, fun s ↦ hrun s ▸ hops.frame s,
      fun s ↦ hrun s ▸ hops.pred s⟩
  obtain ⟨id, rem, dest, b, c, pred⟩ := o
  cases rem with
  | true =>
    refine ⟨_, (createRemOperations fn dest b c).2, ?_,
      hnull (createRemOperations_computes m h hfn)⟩
    simp only [reduce, oper, if_true, reduceRem, hpow, Bool.and_self]
  | false =>
    obtain ⟨ops, fn', hcreate, hops⟩ : ∃ ops fn', createDivideOperations fn dest b c =
        .ok (ops, fn') ∧ Computes m fn ops dest _ := createDivideOperations_computes m h
    refine ⟨_, fn', ?_, hnull hops⟩
    simp only [reduce, oper, Bool.false_eq_true, if_false, reduceDiv, hpow, Bool.and_self, if_true]
    rw [hcreate]
    rfl

/-- The computed value is the wanted one, but for the dividend that has no negation. -/
theorem computed_eq (h : IsDivisor o.c k) {x : BitVec 32}
    (hmin : o.rem = false → o.c.toInt < 0 → x ≠ BitVec.intMin 32) :
    o.computed k x = BitVec.ofInt 32 (o.wanted x) := by
  have hk : k + 1 < 32 := by have := h.lt; omega
  rw [computed, wanted]
  split_ifs with hrem
  · -- the sign of the divisor does not count
    rw [sub_roundUp_and x hk, ← Int.tmod_def]
    obtain hc | hc := h.toInt
    · rw [hc]
    · rw [hc, Int.tmod_neg]
  · have hpos : (0 : ℤ) < 2 ^ k := by positivity
    rw [← BitVec.ofInt_toInt (x := (roundUp (dividend o.c x) k).sshiftRight k),
      toInt_sshiftRight_roundUp _ hk, dividend]
    obtain hc | hc := h.toInt
    · rw [if_pos (by omega), hc]
    · have hne := hmin (by simpa using hrem) (by omega)
      rw [if_neg (by omega), hc, BitVec.toInt_neg_of_ne_intMin hne, Int.neg_tdiv, Int.tdiv_neg]

/-- For the smallest number and a negative divisor the quotient is wrong, as the result is not negated.
-/
theorem computed_intMin : ∀ k < 31, k ≠ 0 → (roundUp (-BitVec.intMin 32) k).sshiftRight k ≠
    BitVec.ofInt 32 ((BitVec.intMin 32).toInt.tdiv (-2 ^ k)) := by decide

/-- That quotient is one that the machine could represent. -/
theorem inRange_intMin : ∀ k < 31, k ≠ 0 → -2 ^ 31 ≤ (BitVec.intMin 32).toInt.tdiv (-2 ^ k) ∧
    (BitVec.intMin 32).toInt.tdiv (-2 ^ k) < 2 ^ 31 := by decide

/-- With a guard that fails the destination is overwritten. -/
theorem eq_self_of_rightAt {ops : List Oper} {s : Regs} {p : ℕ} (hp : o.pred = some p)
    (hs : s.pred p = false)
    (hops : Computes m fn ops o.dest fun s ↦ o.computed k (o.b.value m s))
    (h : o.RightAt m ops s) : o.computed k (o.b.value m s) = s.reg o.dest := by
  have hguard : o.oper.guard s = false := by rw [Oper.guard, oper, hp, ← hs]
  rw [RightAt, hops.result, hguard] at h
  exact h

/-- An operand other than the destination keeps its value when the destination is written. -/
theorem value_of_ne (m : Machine) {b : Operand} {d : ℕ} (hb : b ≠ .reg d) (s : Regs)
    (v : BitVec 32) (pred : ℕ → Bool) :
    b.value m ⟨Function.update s.reg d v, pred⟩ = b.value m s := by
  cases b with
  | int i => rfl
  | label l => rfl
  | reg r => exact Function.update_of_ne (fun h ↦ hb (congrArg Operand.reg h)) v s.reg

/-- The remainder of the power itself comes out wrong. -/
theorem rem_pow_ne : ∀ k < 31, BitVec.ofNat 32 (2 ^ k) -
    (roundUp (BitVec.ofNat 32 (2 ^ k)) k &&& -BitVec.ofNat 32 (2 ^ k)) ≠ BitVec.ofNat 32 (2 ^ k) := by
  decide

/-- A quotient of 1 comes out wrong for a larger divisor. -/
theorem div_one_ne : ∀ k < 31, k ≠ 0 → (roundUp 1#32 k).sshiftRight k ≠ 1#32 := by decide

/-- A quotient of -1 never comes out as 1. -/
theorem div_neg_one_ne : ∀ k < 31, (roundUp (-1#32) k).sshiftRight k ≠ 1#32 := by decide

/-- Small dividends have quotients in range. -/
theorem inRange_pow : ∀ k < 31, ∀ j ≤ k, ∀ c ∈ [(2 : ℤ) ^ k, -2 ^ k],
    -2 ^ 31 ≤ (BitVec.ofNat 32 (2 ^ j)).toInt.tdiv c ∧
      (BitVec.ofNat 32 (2 ^ j)).toInt.tdiv c < 2 ^ 31 := by decide

/-- A guarded operation that is right from every state changes nothing. -/
theorem eq_of_rightAt_guarded {p : ℕ} (hp : o.pred = some p) (h : IsDivisor o.c k)
    (hrange : ∃ s, o.InRange (o.b.value m s)) {ops : List Oper}
    (hops : Computes m fn ops o.dest fun s ↦ o.computed k (o.b.value m s))
    (hright : ∀ s, o.InRange (o.b.value m s) → o.RightAt m ops s) :
    o.rem = false ∧ o.c.toInt = 1 ∧ o.b = .reg o.dest := by
  have hat (reg : ℕ → BitVec 32) (hin : o.InRange (o.b.value m ⟨reg, fun _ ↦ false⟩)) :
      o.computed k (o.b.value m ⟨reg, fun _ ↦ false⟩) = reg o.dest :=
    eq_self_of_rightAt hp rfl hops (hright _ hin)
  have hc : o.c.toInt ∈ [(2 : ℤ) ^ k, -2 ^ k] := by simpa using h.toInt
  rcases eq_or_ne o.b (.reg o.dest) with hb | hb
  · rw [hb] at hat
    have hdiv : o.rem = false := by
      rw [← Bool.not_eq_true]
      intro hrem
      have heq := hat (fun _ ↦ BitVec.ofNat 32 (2 ^ k)) (inRange_pow k h.lt k le_rfl _ hc)
      rw [computed, if_pos hrem] at heq
      exact rem_pow_ne k h.lt heq
    refine ⟨hdiv, ?_, hb⟩
    have heq := hat (fun _ ↦ 1#32) (inRange_pow k h.lt 0 (Nat.zero_le k) _ hc)
    simp only [computed, hdiv, Bool.false_eq_true, if_false, dividend] at heq
    have hpos : (0 : ℤ) < 2 ^ k := by positivity
    obtain hc | hc := h.toInt
    · rw [if_pos (by omega)] at heq
      have hk : k = 0 := by_contra fun hk ↦ div_one_ne k h.lt hk heq
      rw [hc, hk, pow_zero]
    · rw [if_neg (by omega)] at heq
      exact absurd heq (div_neg_one_ne k h.lt)
  · -- the destination can hold any other value
    exfalso
    obtain ⟨s, hs⟩ := hrange
    have heq := hat (Function.update s.reg o.dest (o.computed k (o.b.value m s) + 1))
      (by rw [value_of_ne m hb]; exact hs)
    rw [value_of_ne m hb, Function.update_self, left_eq_add] at heq
    exact absurd heq (by decide)

/-- The inserted operations are right from every state exactly if the operation is safe. -/
theorem reduce_right_iff (hc : -2 ^ 31 ≤ o.c.toInt ∧ o.c.toInt < 2 ^ 31)
    (hpow : absIsPowerOfTwo (.int o.c) = true) (hfn : InFn fn o.dest o.b)
    (hrange : ∃ s, o.InRange (o.b.value m s)) :
    ∃ ops fn', o.reduce fn = .ok (ops, fn') ∧
      ((∀ s, o.InRange (o.b.value m s) → o.RightAt m ops s) ↔ o.Safe m) := by
  obtain ⟨k, h⟩ := exists_isDivisor hc hpow
  obtain ⟨ops, fn', hrun, hops⟩ := reduce_computes m hpow h hfn
  refine ⟨ops, fn', hrun, fun hright ↦ ⟨?_, fun hdiv hneg s hs ↦ ?_⟩, ?_⟩
  · cases hp : o.pred with
    | none => exact .inl rfl
    | some p => exact .inr (eq_of_rightAt_guarded hp h hrange hops hright)
  · -- the dividend -2^31, with a guard that holds
    have hpos : (0 : ℤ) < 2 ^ k := by positivity
    have hc' : o.c.toInt = -2 ^ k := h.toInt.resolve_left (by omega)
    have hk : k ≠ 0 := by
      rintro rfl
      rw [hc'] at hneg
      exact absurd hneg (by decide)
    let s' : Regs := ⟨s.reg, fun _ ↦ true⟩
    have hs' : o.b.value m s' = BitVec.intMin 32 := by rw [← hs]; cases o.b <;> rfl
    have hguard : o.oper.guard s' = true := by
      rw [Oper.guard]
      split <;> rfl
    have heq := hright s' (by rw [hs', InRange, hc']; exact inRange_intMin k h.lt hk)
    simp only [RightAt, hops.result, hguard, if_true, hs', computed, wanted, hdiv, dividend,
      Bool.false_eq_true, if_false, hc', if_neg (show ¬-(2 : ℤ) ^ k > 0 by omega)] at heq
    exact computed_intMin k h.lt hk heq
  · rintro ⟨hguard, hmin⟩ s hin
    have hcomputed : o.computed k (o.b.value m s) = BitVec.ofInt 32 (o.wanted (o.b.value m s)) := by
      refine computed_eq h fun hdiv hneg hx ↦ ?_
      rcases eq_or_ne o.c.toInt (-1) with hone | hone
      · rw [InRange, hx, hone] at hin
        exact absurd hin (by decide)
      · exact hmin hdiv (by omega) s hx
    rw [RightAt, hops.result, hcomputed]
    obtain hnone | ⟨hdiv, hone, hb⟩ := hguard
    · have hguard : o.oper.guard s = true := by rw [Oper.guard, oper, hnone]
      rw [hguard, if_pos rfl]
    · have hself : BitVec.ofInt 32 (o.wanted (o.b.value m s)) = s.reg o.dest := by
        rw [wanted, hdiv, if_neg (by decide), hone, Int.tdiv_one, BitVec.ofInt_toInt, hb]
        rfl
      rw [hself, ite_self]

end DivRem

/-! ### The block -/

section Block

variable {f : FnIds → Oper → Run (List Oper × FnIds)} {fn fn' : FnIds} {ops ops' block : List Oper}

/-- Replacing in two parts of a block, one after the other. -/
theorem replaceAll_append (l₁ l₂ : List Oper) :
    replaceAll f fn (l₁ ++ l₂) = replaceAll f fn l₁ >>= fun r₁ ↦
      replaceAll f r₁.2 l₂ >>= fun r₂ ↦ .ok (r₁.1 ++ r₂.1, r₂.2) := by
  induction l₁ generalizing fn with
  | nil =>
    rw [List.nil_append, replaceAll, Run.ok_bind]
    cases replaceAll f fn l₂ <;> rfl
  | cons o l ih =>
    rw [List.cons_append, replaceAll, replaceAll]
    cases f fn o with
    | error e => rfl
    | ok r =>
      simp only [Run.ok_bind, ih]
      cases replaceAll f r.2 l with
      | error e => rfl
      | ok r₁ =>
        simp only [Run.ok_bind]
        cases replaceAll f r₁.2 l₂ with
        | error e => rfl
        | ok r₂ => simp only [Run.ok_bind, List.append_assoc]

/-- Operations that the loop leaves alone. -/
theorem replaceAll_eq_self (h : ∀ o ∈ ops, ∀ fn, f fn o = .ok ([o], fn)) (fn : FnIds) :
    replaceAll f fn ops = .ok (ops, fn) := by
  induction ops with
  | nil => rfl
  | cons o ops ih =>
    rw [replaceAll, h o List.mem_cons_self, Run.ok_bind]
    simp only [ih fun o' ho' ↦ h o' (List.mem_cons_of_mem o ho'), Run.ok_bind]
    rfl

/-- Loops that only take new registers. -/
def Grows (f : FnIds → Oper → Run (List Oper × FnIds)) : Prop :=
  ∀ {fn fn' o ops}, f fn o = .ok (ops, fn') → fn.maxRegId ≤ fn'.maxRegId

/-- Registers are only added. -/
theorem replaceAll_grows (hf : Grows f) (h : replaceAll f fn ops = .ok (ops', fn')) :
    fn.maxRegId ≤ fn'.maxRegId := by
  induction ops generalizing fn ops' with
  | nil => cases h; exact le_rfl
  | cons o ops ih =>
    obtain ⟨⟨l, fn₁⟩, hfirst, h⟩ := Run.bind_eq_ok.1 h
    obtain ⟨⟨rest, fn₂⟩, hrest, h⟩ := Run.bind_eq_ok.1 h
    cases h
    exact (hf hfirst).trans (ih hrest)

/-- One operation of the block and what stands in its place. -/
theorem exists_of_replaceAll_cons {pre post : List Oper} {o : Oper}
    (h : replaceAll f fn (pre ++ o :: post) = .ok (block, fn')) :
    ∃ pre' ops post' fn₁ fn₂, replaceAll f fn pre = .ok (pre', fn₁) ∧ f fn₁ o = .ok (ops, fn₂) ∧
      replaceAll f fn₂ post = .ok (post', fn') ∧ block = pre' ++ (ops ++ post') := by
  rw [replaceAll_append] at h
  obtain ⟨⟨pre', fn₁⟩, hpre, h⟩ := Run.bind_eq_ok.1 h
  obtain ⟨⟨rest, fn₃⟩, hrest, h⟩ := Run.bind_eq_ok.1 h
  cases h
  obtain ⟨⟨ops, fn₂⟩, hops, h⟩ := Run.bind_eq_ok.1 hrest
  obtain ⟨⟨post', fn₄⟩, hpost, h⟩ := Run.bind_eq_ok.1 h
  cases h
  exact ⟨pre', ops, post', fn₁, fn₂, hpre, hops, hpost, rfl⟩

/-- The operations for a division take four new registers, and none of them is a remainder. -/
theorem createDivideOperations_ok {dest : ℕ} {b : Operand} {c : BitVec 64}
    (h : createDivideOperations fn dest b c = .ok (ops, fn')) :
    fn'.maxRegId = fn.maxRegId + 4 ∧ ∀ o ∈ ops, o.opc ≠ .rem ∧ o.opc ≠ .remU := by
  obtain ⟨v, -, h⟩ := Run.bind_eq_ok.1 h
  cases h
  refine ⟨rfl, fun o ho ↦ ?_⟩
  simp only [List.mem_cons, List.not_mem_nil, or_false] at ho
  rcases ho with rfl | rfl | rfl | rfl | rfl
  · split_ifs <;> simp
  all_goals simp

/-- Replacing divisions leaves no remainder that was not there. -/
theorem reduceDiv_ok {signedDivRem : Bool} {o : Oper}
    (h : reduceDiv signedDivRem fn o = .ok (ops, fn')) : fn.maxRegId ≤ fn'.maxRegId ∧
      (o.opc ≠ .rem ∧ o.opc ≠ .remU → ∀ o' ∈ ops, o'.opc ≠ .rem ∧ o'.opc ≠ .remU) := by
  have hself {o o' : Oper} (h : o.opc ≠ .rem ∧ o.opc ≠ .remU) (ho' : o' ∈ [o]) :
      o'.opc ≠ .rem ∧ o'.opc ≠ .remU := List.mem_singleton.1 ho' ▸ h
  rw [reduceDiv] at h
  split at h
  · split_ifs at h
    · obtain ⟨⟨ops', fn₁⟩, hcreate, h⟩ := Run.bind_eq_ok.1 h
      cases h
      obtain ⟨hmax, hops⟩ := createDivideOperations_ok hcreate
      refine ⟨by rw [hmax]; omega, fun _ o' ho' ↦ ?_⟩
      exact (List.mem_append.1 ho').elim (hops o') (hself (o := nullifyOperation o) (by simp [nullifyOperation]))
    · cases h; exact ⟨le_rfl, fun ho _ ho' ↦ hself ho ho'⟩
  · split_ifs at h
    · obtain ⟨val, -, h⟩ := Run.bind_eq_ok.1 h
      cases h
      exact ⟨le_rfl, fun _ _ ho' ↦ hself (o := { o with opc := .lsr, src := _ }) (by simp) ho'⟩
    · cases h; exact ⟨le_rfl, fun ho _ ho' ↦ hself ho ho'⟩
  · cases h; exact ⟨le_rfl, fun ho _ ho' ↦ hself ho ho'⟩

theorem grows_reduceDiv (signedDivRem : Bool) : Grows (reduceDiv signedDivRem) :=
  fun h ↦ (reduceDiv_ok h).1

theorem grows_reduceRem (signedDivRem : Bool) : Grows (reduceRem signedDivRem) := by
  intro fn fn' o ops h
  rw [reduceRem] at h
  split at h
  · split_ifs at h
    · cases h
      exact Nat.le_add_right _ 4
    · cases h; exact le_rfl
  · split_ifs at h
    · obtain ⟨val, -, h⟩ := Run.bind_eq_ok.1 h
      cases h; exact le_rfl
    · cases h; exact le_rfl
  · cases h; exact le_rfl

/-- The loop over the remainders leaves other operations alone. -/
theorem reduceRem_eq_self {signedDivRem : Bool} {o : Oper} (h : o.opc ≠ .rem ∧ o.opc ≠ .remU)
    (fn : FnIds) : reduceRem signedDivRem fn o = .ok ([o], fn) := by
  rw [reduceRem]
  split
  · rename_i hopc _ _
    exact absurd hopc h.1
  · rename_i hopc _
    exact absurd hopc h.2
  · rfl

variable {o : DivRem} {pre post : List Oper}

/-- Where the pass puts the operations for a signed division or remainder. -/
theorem exists_of_localStrengthReduction
    (h : localStrengthReduction true fn (pre ++ o.oper :: post) = .ok (block, fn')) :
    ∃ pre' ops post' fn₁ fn₂, block = pre' ++ (ops ++ post') ∧ fn.maxRegId ≤ fn₁.maxRegId ∧
      o.reduce fn₁ = .ok (ops, fn₂) := by
  obtain ⟨block₁, hmul, h⟩ := Run.bind_eq_ok.1 h
  obtain ⟨⟨block₂, fn₂⟩, hdiv, hrem⟩ := Run.bind_eq_ok.1 h
  -- the multiplications are in other places
  obtain ⟨pre₁, post₁, rfl⟩ : ∃ pre₁ post₁, block₁ = pre₁ ++ o.oper :: post₁ := by
    rw [List.mapM_append] at hmul
    obtain ⟨pre₁, -, hmul⟩ := Run.bind_eq_ok.1 hmul
    obtain ⟨rest, hrest, hmul⟩ := Run.bind_eq_ok.1 hmul
    rw [List.mapM_cons] at hrest
    obtain ⟨o', ho', hrest⟩ := Run.bind_eq_ok.1 hrest
    obtain ⟨post₁, -, hrest⟩ := Run.bind_eq_ok.1 hrest
    have hself : reduceMul o.oper = .ok o.oper := by
      rw [reduceMul, DivRem.oper]
      cases o.rem <;> rfl
    cases hself.symm.trans ho'
    cases hrest
    cases hmul
    exact ⟨pre₁, post₁, rfl⟩
  obtain ⟨pre₂, ops, post₂, fn₁, fn₁', hpre, hops, hpost, rfl⟩ := exists_of_replaceAll_cons hdiv
  have hgrow : fn.maxRegId ≤ fn₁.maxRegId := replaceAll_grows (grows_reduceDiv true) hpre
  cases hrem' : o.rem with
  | true =>
    -- a remainder is still there in the last loop
    have hself : reduceDiv true fn₁ o.oper = .ok ([o.oper], fn₁) := by
      rw [DivRem.oper, hrem']
      rfl
    cases hself.symm.trans hops
    obtain ⟨pre₃, ops₃, post₃, fn₃, fn₃', hpre₃, hops₃, -, rfl⟩ := exists_of_replaceAll_cons hrem
    refine ⟨pre₃, ops₃, post₃, fn₃, fn₃', rfl, ?_, ?_⟩
    · exact hgrow.trans ((replaceAll_grows (grows_reduceDiv true) hpost).trans
        (replaceAll_grows (grows_reduceRem true) hpre₃))
    · rw [DivRem.reduce, hrem', if_pos rfl]
      exact hops₃
  | false =>
    have hreduce : o.reduce fn₁ = .ok (ops, fn₁') := by
      rw [DivRem.reduce, hrem', if_neg (by decide)]
      exact hops
    have hleft : ∀ o ∈ ops, o.opc ≠ .rem ∧ o.opc ≠ .remU :=
      (reduceDiv_ok hops).2 (by simp [DivRem.oper, hrem'])
    dsimp only at hrem
    rw [replaceAll_append] at hrem
    obtain ⟨⟨pre₃, fn₃⟩, -, hrem⟩ := Run.bind_eq_ok.1 hrem
    obtain ⟨⟨rest, fn₄⟩, hrest, hrem⟩ := Run.bind_eq_ok.1 hrem
    cases hrem
    rw [replaceAll_append, replaceAll_eq_self fun o ho ↦ reduceRem_eq_self (hleft o ho),
      Run.ok_bind] at hrest
    obtain ⟨⟨post₃, fn₅⟩, -, hrest⟩ := Run.bind_eq_ok.1 hrest
    cases hrest
    exact ⟨pre₃, ops, post₃, fn₁, fn₁', rfl, hgrow, hreduce⟩

/-- **Strength reduction of a signed division or remainder** in any block: what the pass puts in its place
is what `L_create_divide_operations` or `L_create_rem_operations` inserts, with new registers that no
operation before it uses, and these operations leave the destination right from every state exactly if
the operation is unguarded (or divides its own destination by 1) and no dividend is -2^31 with a divisor
below -1. -/
theorem localStrengthReduction_right_iff {m : Machine}
    (hc : -2 ^ 31 ≤ o.c.toInt ∧ o.c.toInt < 2 ^ 31) (hpow : absIsPowerOfTwo (.int o.c) = true)
    (hfn : InFn fn o.dest o.b) (hrange : ∃ s, o.InRange (o.b.value m s))
    (h : localStrengthReduction true fn (pre ++ o.oper :: post) = .ok (block, fn')) :
    ∃ pre' ops post' fn₁ fn₂, block = pre' ++ (ops ++ post') ∧ fn.maxRegId ≤ fn₁.maxRegId ∧
      o.reduce fn₁ = .ok (ops, fn₂) ∧
        ((∀ s, o.InRange (o.b.value m s) → o.RightAt m ops s) ↔ o.Safe m) := by
  obtain ⟨pre', ops, post', fn₁, fn₂, hblock, hgrow, hreduce⟩ := exists_of_localStrengthReduction h
  have hfn₁ : InFn fn₁ o.dest o.b := ⟨hfn.dest.trans hgrow, fun r hr ↦ (hfn.src r hr).trans hgrow⟩
  obtain ⟨ops', fn₃, hreduce', hiff⟩ := o.reduce_right_iff hc hpow hfn₁ hrange
  cases hreduce.symm.trans hreduce'
  exact ⟨pre', ops, post', fn₁, fn₂, hblock, hgrow, hreduce, hiff⟩

end Block

/-! ### A division by 4 and one by -2 -/

/-- `r1 = r2 / c`. -/
def divBy (c : BitVec 64) (pred : Option ℕ) : DivRem := ⟨1, false, 1, .reg 2, c, pred⟩

/-- A division by 4 is one that is replaced. -/
theorem localStrengthReduction_right_iff_four :
    ∃ block fn', localStrengthReduction true ⟨2, 1⟩ ([] ++ (divBy 4 none).oper :: []) =
      .ok (block, fn') ∧ ∃ pre' ops post' fn₁ fn₂, block = pre' ++ (ops ++ post') ∧
        2 ≤ fn₁.maxRegId ∧ (divBy 4 none).reduce fn₁ = .ok (ops, fn₂) ∧
          ((∀ s, (divBy 4 none).InRange ((divBy 4 none).b.value plainMachine s) →
            (divBy 4 none).RightAt plainMachine ops s) ↔ (divBy 4 none).Safe plainMachine) := by
  obtain ⟨⟨block, fn'⟩, h⟩ : ∃ r, localStrengthReduction true ⟨2, 1⟩
      ([] ++ (divBy 4 none).oper :: []) = .ok r := ⟨_, rfl⟩
  refine ⟨block, fn', h, localStrengthReduction_right_iff (by decide) (by decide +kernel) ?_ ?_ h⟩
  · exact ⟨by decide, fun r hr ↦ by cases hr; decide⟩
  · exact ⟨⟨fun _ ↦ 0, fun _ ↦ true⟩, by decide⟩

/-- From a state in which the dividend is -2^31 the operations for a division by -2 leave -2^30 and not
2^30, and where a guard does not hold they overwrite the destination. -/
theorem not_right_lowest_guarded :
    (∃ block fn', localStrengthReduction true ⟨2, 1⟩ [(divBy (-2) none).oper] = .ok (block, fn') ∧
      (divBy (-2) none).InRange (BitVec.intMin 32) ∧
      (divBy (-2) none).wanted (BitVec.intMin 32) = 2 ^ 30 ∧
      (run plainMachine block ⟨fun _ ↦ BitVec.intMin 32, fun _ ↦ true⟩).reg 1 =
        BitVec.ofInt 32 (-2 ^ 30)) ∧
      ∃ block fn', localStrengthReduction true ⟨2, 1⟩ [(divBy 4 (some 1)).oper] =
        .ok (block, fn') ∧
        (run plainMachine block ⟨fun _ ↦ 8, fun _ ↦ false⟩).reg 1 = 2 :=
  ⟨⟨_, _, rfl, by decide, by decide, by decide +kernel⟩, _, _, rfl, by decide +kernel⟩

end OpenImpact.Lopti
