import OpenImpact.Lopti.ConstProp
import OpenImpact.Lcode.World

/-!
# What the block passes ask about operations

The queries that the passes over a block make beyond those of constant propagation, and what the answers
mean for a run of the block (`Lawful`). Where a pass has found that a register is not defined between two
operations that both run, and that no call in between changes it, no operation in between touches it
(`not_disturbs_between`).
-/

namespace OpenImpact.Lopti

open Foundation Lcode

/-- The integer types. -/
inductive Ctype where
  | char | uchar | short | ushort | int | uint | long | ulong | llong | ullong
  deriving DecidableEq

/-- `L_ctype_signed_version`. -/
def Ctype.signedVersion : Ctype → Ctype
  | .char | .uchar => .char
  | .short | .ushort => .short
  | .int | .uint => .int
  | .long | .ulong => .long
  | .llong | .ullong => .llong

/-- The low part of a register that a value of the type takes. -/
def Ctype.bits : Ctype → ℕ
  | .char | .uchar => 8
  | .short | .ushort => 16
  | _ => 32

/-- `L_opcode_ctype` of `L_sign_or_zero_extend_opcode`s. -/
def extensionCtype : Opcode → Option Ctype
  | .sxtC => some .char
  | .sxtC2 => some .short
  | .sxtI => some .int
  | .zxtC => some .uchar
  | .zxtC2 => some .ushort
  | .zxtI => some .uint
  | _ => none

/-- What the passes ask of an operation and its operands: `L_is_macro` and `L_is_unsafe_macro` of a
register, `L_is_implied_ret_destination_operand`, `L_store_ctype` of a `L_general_store_opcode` and the
position of the value it stores, `L_get_compare_ctype` of a `Lop_CMP`, the completers `com[0]` and
`com[1]`, the integer operations among `L_general_arithmetic_opcode` that are not modelled, and
`L_is_label` and `L_is_string` of a constant; and `Lopti_copy_prop_incl_sz_ext`. -/
structure LocalTarget extends Target where
  isMacro : ℕ → Bool
  unsafeMacro : ℕ → Bool
  impliedRet : Oper → ℕ → Bool
  storeCtype : Oper → Option Ctype
  storeValue : Oper → ℕ
  compareCtype : Oper → Option Ctype
  com : Oper → ℕ × ℕ
  otherArithmetic : ℕ → Bool
  isLabel : ℕ → Bool
  isString : ℕ → Bool
  copyPropInclSzExt : Bool

section Queries

variable (t : LocalTarget)

/-- The walk of `L_same_def_reachs` over the operations before `op`, nearest first: how many operations
lie before the definition of `r` that reaches `op`. -/
def lastDef (r : ℕ) (op : Oper) : List Oper → Option ℕ
  | [] => none
  | p :: ps =>
    if t.intersectingPredicatesOps p op && (p.dest = some r || t.impliedRet p r) then some ps.length
    else lastDef r op ps

/-- `L_same_def_reachs`, with the operations before `opA`, nearest first, and those in between. -/
def sameDefReachs (r : ℕ) (prevs : List Oper) (opA : Oper) (between : List Oper) (opB : Oper) : Bool :=
  lastDef t r opA prevs = lastDef t r opB (between.reverse ++ opA :: prevs)

/-- `L_no_danger`, with no memory flags, of the operations before `opB`. -/
def noDangerMacro (macroFlag : Bool) (before : List Oper) : Bool :=
  before.all fun o ↦ !t.syncOpcode o && !(macroFlag && t.subroutineCall o)

theorem noDanger_eq (d : ℕ) (before : List Oper) :
    noDanger t.toTarget d before = noDangerMacro t (t.fragileMacro d) before := rfl

end Queries

variable {μ : Type} {t : LocalTarget} {w : World μ} {g : ℕ → Bool} {opA opB : Oper}
  {prevs between : List Oper} {r : ℕ}

/-- The answers are right in a run in which the predicates are as `g` says: a superset runs whenever the
other operation does, and two operations that both run intersect. What an operation is does not depend
on its sources. -/
structure Lawful (t : LocalTarget) (g : ℕ → Bool) : Prop where
  superset : ∀ opA opB, t.supersetPredicateOps opA opB = true → opB.holds g = true →
    opA.holds g = true
  intersecting : ∀ opA opB, opA.holds g = true → opB.holds g = true →
    t.intersectingPredicatesOps opA opB = true
  subroutineCall : ∀ o src, t.subroutineCall { o with src := src } = t.subroutineCall o
  storeCtype : ∀ o src, t.storeCtype { o with src := src } = t.storeCtype o
  storeValue : ∀ o src, t.storeValue { o with src := src } = t.storeValue o
  compareCtype : ∀ o src, t.compareCtype { o with src := src } = t.compareCtype o
  com : ∀ o src, t.com { o with src := src } = t.com o
  store_isOther : ∀ o c, t.storeCtype o = some c → o.opc.isOther = true
  compare_isOther : ∀ o c, t.compareCtype o = some c → o.opc.isOther = true

/-- What the world makes of an operation that is not modelled: only a call changes registers beside its
destination, and only fragile macros; where the guard fails the sources are not looked at; stores and
comparisons look at the low part of what they store and compare; and an arithmetic operation computes a
value from its sources, by its opcode and completers, and leaves all else. -/
structure OtherOk (t : LocalTarget) (w : World μ) (arith : ℕ → ℕ × ℕ → List (BitVec 32) → BitVec 32)
    (n : ℕ) (o : Oper) : Prop where
  clobbers : ∀ r, w.clobbers o.id r = true → t.subroutineCall o = true ∧ t.fragileMacro r = true
  off : ∀ (s : Regs) vals vals' mem, o.guard s = false →
    w.preds o.id vals mem s.pred = w.preds o.id vals' mem s.pred
  store : ∀ c, t.storeCtype o = some c → ∀ vals vals', vals'.length = vals.length →
    (∀ i ≠ t.storeValue o, vals'[i]? = vals[i]?) →
      (vals'.getD (t.storeValue o) 0).setWidth c.bits = (vals.getD (t.storeValue o) 0).setWidth c.bits →
        w.SameOn o.id vals vals'
  compare : ∀ c, t.compareCtype o = some c → ∀ vals vals', vals'.length = vals.length →
    (∀ i, (vals'.getD i 0).setWidth c.bits = (vals.getD i 0).setWidth c.bits) →
      w.SameOn o.id vals vals'
  arith_other : t.otherArithmetic n = true → ∀ vals mem, w.other o.id vals mem = arith n (t.com o) vals
  arith_preds : t.otherArithmetic n = true → ∀ vals mem p, w.preds o.id vals mem p = p
  arith_memory : t.otherArithmetic n = true → ∀ vals s mem, w.memory o.id vals s mem = mem
  arith_clobbers : t.otherArithmetic n = true → ∀ r, w.clobbers o.id r = false

/-- `OtherOk` of an operation that is not modelled. -/
def OperOk (t : LocalTarget) (w : World μ) (arith : ℕ → ℕ × ℕ → List (BitVec 32) → BitVec 32)
    (o : Oper) : Prop :=
  ∀ n, o.opc = .other n → OtherOk t w arith n o

/-- An operation as a pass may meet it. -/
def Runs (t : LocalTarget) (w : World μ) (g : ℕ → Bool)
    (arith : ℕ → ℕ × ℕ → List (BitVec 32) → BitVec 32) (s : State μ) (o : Oper) : Prop :=
  Guarded g s o ∧ OperOk t w arith o

/-- An operation as a pass may meet it that changes one of the registers. -/
def Disturbs (t : LocalTarget) (w : World μ) (g : ℕ → Bool)
    (arith : ℕ → ℕ × ℕ → List (BitVec 32) → BitVec 32) (rs : List ℕ) (o : Oper) : Prop :=
  OperOk t w arith o ∧ Touches w g rs o

variable {arith : ℕ → ℕ × ℕ → List (BitVec 32) → BitVec 32}

theorem operOk_of_not_isOther {o : Oper} (h : o.opc.isOther = false) : OperOk t w arith o := by
  intro n hn
  rw [hn] at h
  cases h

/-- Other sources leave an operation as it may be met. -/
theorem OperOk.withSrc {o : Oper} (hl : Lawful t g) (h : OperOk t w arith o) (src : List Operand) :
    OperOk t w arith { o with src := src } := by
  intro n hn
  have ho := h n hn
  refine ⟨fun r hr ↦ ?_, ho.off, fun c hc ↦ ?_, fun c hc ↦ ?_, fun ha ↦ ?_, ho.arith_preds,
    ho.arith_memory, ho.arith_clobbers⟩
  · rw [hl.subroutineCall]
    exact ho.clobbers r hr
  · rw [hl.storeCtype] at hc
    rw [hl.storeValue]
    exact ho.store c hc
  · rw [hl.compareCtype] at hc
    exact ho.compare c hc
  · rw [hl.com]
    exact ho.arith_other ha

theorem Runs.withSrc {s : State μ} {o : Oper} (hl : Lawful t g) (h : Runs t w g arith s o)
    (src : List Operand) : Runs t w g arith s { o with src := src } :=
  ⟨h.1, h.2.withSrc hl src⟩

theorem lastDef_lt {op : Oper} {ps : List Oper} {n : ℕ} (h : lastDef t r op ps = some n) :
    n < ps.length := by
  induction ps with
  | nil => cases h
  | cons p ps ih =>
    rw [lastDef] at h
    split_ifs at h
    · cases h
      exact Nat.lt_succ_self _
    · exact (ih h).trans (Nat.lt_succ_self _)

/-- If the walk gets past an operation, the operation is no definition. -/
theorem not_def_of_lastDef {op : Oper} {qs ps : List Oper}
    (h : ∀ n, lastDef t r op (qs ++ ps) = some n → n < ps.length) {q : Oper} (hq : q ∈ qs)
    (hint : t.intersectingPredicatesOps q op = true) : q.dest ≠ some r := by
  induction qs with
  | nil => cases hq
  | cons q' qs ih =>
    simp only [List.cons_append, lastDef] at h
    split_ifs at h with hdef
    · have := h _ rfl
      simp only [List.length_append] at this
      omega
    · rcases List.mem_cons.1 hq with rfl | hq
      · intro hdest
        simp [hint, hdest] at hdef
      · exact ih h hq

/-- The same definition reaches both operations, so none lies from the first one to the second one. -/
theorem dest_ne_of_sameDefReachs (h : sameDefReachs t r prevs opA between opB = true) {p : Oper}
    (hp : p ∈ opA :: between) (hint : t.intersectingPredicatesOps p opB = true) :
    p.dest ≠ some r := by
  have heq : lastDef t r opA prevs = lastDef t r opB (between.reverse ++ opA :: prevs) :=
    of_decide_eq_true h
  have hwalk : ∀ n, lastDef t r opB ((between.reverse ++ [opA]) ++ prevs) = some n →
      n < prevs.length := by
    intro n hn
    rw [List.append_assoc, List.singleton_append, ← heq] at hn
    exact lastDef_lt hn
  have hmem : p ∈ between.reverse ++ [opA] := by
    rcases List.mem_cons.1 hp with rfl | hp
    · simp
    · simp [hp]
  exact not_def_of_lastDef hwalk hmem hint

theorem dest_ne_of_noDefsBetween {d : ℕ} (h : noDefsBetween t.toTarget d between opB = true) {p : Oper}
    (hp : p ∈ between) (hint : t.intersectingPredicatesOps p opB = true) : p.dest ≠ some d := by
  rw [noDefsBetween] at h
  split at h
  · have := List.all_eq_true.1 h p hp
    simpa [hint] using this
  · exact of_decide_eq_true (List.all_eq_true.1 h p hp)

theorem not_clobbers_of_noDanger {macroFlag : Bool} {before : List Oper}
    (h : noDangerMacro t macroFlag before = true) (hr : t.fragileMacro r = true → macroFlag = true)
    {p : Oper} (hp : p ∈ before) (hok : OperOk t w arith p) (hother : p.opc.isOther = true) :
    w.clobbers p.id r = false := by
  obtain ⟨n, hn⟩ := isOther_iff.1 hother
  by_contra hclob
  rw [Bool.not_eq_false] at hclob
  obtain ⟨hcall, hfragile⟩ := (hok n hn).clobbers r hclob
  have := List.all_eq_true.1 h p hp
  simp [hcall, hr hfragile] at this

theorem noDanger_of_cons {macroFlag : Bool} {o : Oper} {before : List Oper}
    (h : noDangerMacro t macroFlag (o :: before) = true) : noDangerMacro t macroFlag before = true := by
  rw [noDangerMacro, List.all_cons, Bool.and_eq_true] at h
  exact h.2

/-- **Registers that are not defined in between**, nor changed by a call, are not disturbed in between
if the second operation runs. -/
theorem not_disturbs_between {macroFlag : Bool} {rs : List ℕ} {before : List Oper} (hl : Lawful t g)
    (hB : opB.holds g = true)
    (hdefs : ∀ r ∈ rs, ∀ p ∈ before, t.intersectingPredicatesOps p opB = true → p.dest ≠ some r)
    (hdanger : noDangerMacro t macroFlag before = true)
    (hflag : ∀ r ∈ rs, t.fragileMacro r = true → macroFlag = true) {p : Oper} (hp : p ∈ before) :
    ¬ Disturbs t w g arith rs p := by
  rintro ⟨hok, hholds, r, hr, hdest | ⟨hother, hclob⟩⟩
  · exact hdefs r hr p hp (hl.intersecting p opB hholds hB) hdest
  · rw [not_clobbers_of_noDanger hdanger (hflag r hr) hp hok hother] at hclob
    cases hclob

theorem step_reg_of_not_disturbs {s : State μ} {o : Oper} {rs : List ℕ} (ho : Runs t w g arith s o)
    (h : ¬ Disturbs t w g arith rs o) (hr : r ∈ rs) : (o.step w s).regs.reg r = s.regs.reg r :=
  step_reg_of_not_touches ho.1 (fun ht ↦ h ⟨ho.2, ht⟩) hr

/-- An operation that does not run does the same with other sources. -/
theorem step_withSrc_of_not_holds {s : State μ} {o : Oper} (ho : Runs t w g arith s o)
    (h : o.holds g = false) (src : List Operand) :
    Oper.step w s { o with src := src } = o.step w s := by
  have hguard : o.guard s.regs = false := ho.1.trans h
  cases hother : o.opc.isOther with
  | false =>
    exact step_of_result rfl rfl hother hother fun hrun ↦ by rw [hguard] at hrun; cases hrun
  | true =>
    obtain ⟨n, hn⟩ := isOther_iff.1 hother
    have hpreds := (ho.2 n hn).off s.regs
      (Oper.srcValues (w.machine s.mem) s.regs { o with src := src })
      (o.srcValues (w.machine s.mem) s.regs) s.mem hguard
    have hoff : ¬ o.guard s.regs = true := by rw [hguard]; exact Bool.false_ne_true
    have hexec : Oper.exec (w.machine s.mem) s.regs { o with src := src } =
        o.exec (w.machine s.mem) s.regs := by
      refine regs_ext ?_ ?_
      · simp only [Oper.exec]
        cases o.dest with
        | none => rfl
        | some d =>
          dsimp only
          rw [if_neg hoff, if_neg]
          exact hoff
      · simp only [Oper.exec, hn]
        exact hpreds
    rw [Oper.step, Oper.step, hexec]
    simp only [hn]
    rw [if_neg hoff, if_neg]
    exact hoff

/-! ### A target and a world -/

/-- A target that refuses nothing, whose operation `3` stores a character. -/
def charTarget : LocalTarget where
  numOperRequired _ := 1
  doNotConstantFold _ := false
  volatile _ := false
  canChangeSrcOperand _ _ := true
  fragileMacro _ := false
  syncOpcode _ := false
  subroutineCall _ := false
  supersetPredicateOps opA _ := opA.pred = none
  intersectingPredicatesOps _ _ := true
  isMacro _ := false
  unsafeMacro _ := false
  impliedRet _ _ := false
  storeCtype o := if o.id = 3 ∧ o.opc = .other 300 then some .char else none
  storeValue _ := 2
  compareCtype _ := none
  com _ := (0, 0)
  otherArithmetic _ := false
  isLabel _ := true
  isString _ := false
  copyPropInclSzExt := true

/-- A world that keeps the characters stored. -/
def charWorld : World (List (BitVec 8)) where
  label _ := 0
  other _ _ _ := 0
  preds _ _ _ p := p
  clobbers _ _ := false
  call _ _ _ _ := 0
  memory id vals _ mem := if id = 3 then (vals.getD 2 0).setWidth 8 :: mem else mem

theorem lawful_charTarget : Lawful charTarget fun _ ↦ true where
  superset opA opB h _ := holds_of_pred (of_decide_eq_true h)
  intersecting _ _ _ _ := rfl
  subroutineCall _ _ := rfl
  storeCtype _ _ := rfl
  storeValue _ _ := rfl
  compareCtype _ _ := rfl
  com _ _ := rfl
  store_isOther o c h := by
    simp only [charTarget] at h
    split_ifs at h with hstore
    rw [hstore.2]
    rfl
  compare_isOther _ _ h := by cases h

/-- The store is as the passes assume it. -/
theorem otherOk_charStore (n : ℕ) (src : List Operand) (pred : Option ℕ) :
    OtherOk charTarget charWorld (fun _ _ _ ↦ 0) n ⟨3, .other 300, none, src, pred⟩ where
  clobbers _ h := by cases h
  off _ _ _ _ _ := rfl
  store c hc vals vals' _ _ hlow := by
    simp only [charTarget] at hc
    cases hc
    exact ⟨fun _ ↦ rfl, fun _ ↦ rfl, fun _ ↦ rfl, fun mem _ ↦ congrArg (· :: mem) hlow⟩
  compare _ h := by cases h
  arith_other h := by cases h
  arith_preds h := by cases h
  arith_memory h := by cases h
  arith_clobbers h := by cases h

end OpenImpact.Lopti
