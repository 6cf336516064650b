import OpenImpact.Lopti.ConstProp

/-!
# What propagation and folding leave unchanged

A source is only replaced by a constant that its register holds there (`run_propagateFrom`), and an
operation only by a move of the value that it computes, if its operands fit (`exec_foldOper`).

`run_eq_of_runPasses` is about any sequence of the two passes, and says for every state of the
machine that the block does what it did; it also says that no pass divides by zero. `PassesFit` asks
of each folding that the operands it evaluates are ones whose upper halves do not matter
(`FoldFits`), on the block as it is then. Guards are left out here and are in `ConstRule` and
`Folding`, as are labels and strings, which are constants that are never folded.
-/

namespace OpenImpact.Lopti

open Lcode

variable {t : Target} {m : Machine} {d : ℕ} {c : Operand} {o : Oper} {ops : List Oper}

/-- Blocks without guards. -/
def Unguarded (ops : List Oper) : Prop :=
  ∀ o ∈ ops, o.pred = none

/-! ### Propagation -/

/-- A constant has the same value in all states. -/
theorem value_eq_of_isConstant (h : isConstant c = true) (s s' : Regs) :
    c.value m s = c.value m s' := by
  cases c with
  | int i => rfl
  | label l => rfl
  | reg r => cases h

/-- A constant that is cut for its operation has the same value. -/
theorem value_maskedFor (opc : Opcode) (s : Regs) : (maskedFor opc c).value m s = c.value m s := by
  cases c with
  | int i =>
    rw [maskedFor]
    split_ifs
    · simp
    · rfl
  | reg r => rfl
  | label l => rfl

/-- What an operation does depends on the values of its sources. -/
theorem exec_congr {o' : Oper} {s : Regs} (hid : o'.id = o.id) (hopc : o'.opc = o.opc)
    (hdest : o'.dest = o.dest) (hpred : o'.pred = o.pred)
    (hsrc : o'.srcValues m s = o.srcValues m s) : o'.exec m s = o.exec m s := by
  have hresult : o'.result m s = o.result m s := by
    rw [Oper.result, Oper.result, hopc, hid, hsrc]
  have hguard : o'.guard s = o.guard s := by rw [Oper.guard, Oper.guard, hpred]
  rw [Oper.exec, Oper.exec, hdest, hopc, hid, hsrc, hresult, hguard]

/-- An operation with other sources. -/
structure SameButSrc (m : Machine) (s : Regs) (o o' : Oper) : Prop where
  id : o'.id = o.id
  opc : o'.opc = o.opc
  dest : o'.dest = o.dest
  pred : o'.pred = o.pred
  src : o'.srcValues m s = o.srcValues m s

/-- An operation with other sources of the same values does the same. -/
theorem SameButSrc.exec {s : Regs} {o' : Oper} (h : SameButSrc m s o o') :
    o'.exec m s = o.exec m s :=
  exec_congr h.id h.opc h.dest h.pred h.src

/-- Replacing one source by the constant that the register holds. -/
theorem sameButSrc_replaceSource {s : Regs} {st : Oper × ℕ} (h : SameButSrc m s o st.1)
    (hd : s.reg d = c.value m s) (i : ℕ) : SameButSrc m s o (replaceSource t d c st i).1 := by
  obtain ⟨opB, change⟩ := st
  rw [replaceSource]
  dsimp only
  split_ifs with hreg hnum
  · exact h
  · refine ⟨h.id, h.opc, h.dest, h.pred, h.src ▸ ?_⟩
    obtain ⟨hi, hget⟩ := List.getElem?_eq_some_iff.1 hreg
    refine List.ext_getElem (by simp [Oper.srcValues]) fun j hj hj' ↦ ?_
    simp only [Oper.srcValues, List.getElem_map, List.getElem_set]
    split_ifs with hij
    · subst hij
      rw [value_maskedFor, hget, value_reg, hd]
    · rfl
  · exact h

/-- Replacing all of them. -/
theorem sameButSrc_replaceSources {s : Regs} (hd : s.reg d = c.value m s) (opB : Oper) :
    SameButSrc m s opB (replaceSources t d c opB).1 := by
  rw [replaceSources]
  generalize List.range opB.src.length = l
  have hstart : SameButSrc m s opB (opB, (0 : ℕ)).1 := ⟨rfl, rfl, rfl, rfl, rfl⟩
  generalize (opB, (0 : ℕ)) = st at hstart ⊢
  induction l generalizing st with
  | nil => exact hstart
  | cons i l ih => exact ih _ (sameButSrc_replaceSource hstart hd i)

/-- The fields that propagation does not touch. -/
theorem replaceSources_dest_pred (hc : isConstant c = true) (opB : Oper) :
    (replaceSources t d c opB).1.dest = opB.dest ∧ (replaceSources t d c opB).1.pred = opB.pred := by
  let s : Regs := ⟨fun _ ↦ c.value plainMachine ⟨fun _ ↦ 0, fun _ ↦ true⟩, fun _ ↦ true⟩
  have h : SameButSrc plainMachine s opB (replaceSources t d c opB).1 :=
    sameButSrc_replaceSources (value_eq_of_isConstant hc _ s) opB
  exact ⟨h.dest, h.pred⟩

theorem unguarded_cons : Unguarded (o :: ops) ↔ o.pred = none ∧ Unguarded ops := List.forall_mem_cons

/-- Without guards, no operation between the two writes the register. -/
theorem noDefsBetween_of_unguarded {between : List Oper} {opB : Oper} (hpred : opB.pred = none)
    (h : noDefsBetween t d between opB = true) : ∀ o ∈ between, o.dest ≠ some d := by
  rw [noDefsBetween, hpred] at h
  exact fun o ho ↦ of_decide_eq_true (List.all_eq_true.1 h o ho)

/-- **The inner loop** keeps what the rest of the block does, from every state in which the register
still holds the constant if nothing in between writes it. -/
theorem run_propagateFrom (opA : Oper) (hc : isConstant c = true) {rest : List Oper}
    (hrest : Unguarded rest) (between : List Oper) {s : Regs}
    (hs : (∀ o ∈ between, o.dest ≠ some d) → s.reg d = c.value m s) :
    run m (propagateFrom t opA d c between rest).1 s = run m rest s := by
  induction rest generalizing between s with
  | nil => rfl
  | cons opB rest ih =>
    obtain ⟨hpred, hrest⟩ := unguarded_cons.1 hrest
    -- after one more operation
    have hnext {opB' : Oper} (hdest : opB'.dest = opB.dest) :
        (∀ o ∈ between ++ [opB'], o.dest ≠ some d) →
          (opB.exec m s).reg d = c.value m (opB.exec m s) := by
      intro hnone
      have hB : opB.dest ≠ some d := hdest ▸ hnone opB' (by simp)
      rw [exec_reg_of_dest_ne hB, value_eq_of_isConstant hc _ s]
      exact hs fun o ho ↦ hnone o (List.mem_append_left _ ho)
    rw [propagateFrom]
    split_ifs with hskip hdanger
    · exact ih hrest _ (hnext rfl)
    · rfl
    · have hdefs : noDefsBetween t d between opB = true := by
        simp only [Bool.or_eq_true, not_or, Bool.not_eq_true'] at hskip
        simpa using hskip.1.1.2
      have hd : s.reg d = c.value m s := hs (noDefsBetween_of_unguarded hpred hdefs)
      have hexec := (sameButSrc_replaceSources (t := t) hd opB).exec
      simp only [run_cons, hexec]
      exact ih hrest _ (hnext (replaceSources_dest_pred hc opB).1)

/-- Propagating a constant guards no operation. -/
theorem unguarded_propagateFrom (opA : Oper) (hc : isConstant c = true) {rest : List Oper}
    (hrest : Unguarded rest) (between : List Oper) :
    Unguarded (propagateFrom t opA d c between rest).1 := by
  induction rest generalizing between with
  | nil => exact hrest
  | cons opB rest ih =>
    obtain ⟨hpred, hrest⟩ := unguarded_cons.1 hrest
    rw [propagateFrom]
    split_ifs
    · exact unguarded_cons.2 ⟨hpred, ih hrest _⟩
    · exact unguarded_cons.2 ⟨hpred, hrest⟩
    · exact unguarded_cons.2 ⟨(replaceSources_dest_pred hc opB).2.trans hpred, ih hrest _⟩

/-- A pass keeps what an unguarded block does. -/
def Keeps (m : Machine) (ops ops' : List Oper) : Prop :=
  Unguarded ops' ∧ ∀ s, run m ops' s = run m ops s

/-- One operation in front of a block that is kept. -/
theorem Keeps.cons {ops' : List Oper} (hpred : o.pred = none) (h : Keeps m ops ops') :
    Keeps m (o :: ops) (o :: ops') :=
  ⟨unguarded_cons.2 ⟨hpred, h.1⟩, fun s ↦ h.2 (o.exec m s)⟩

/-- **The outer loop.** -/
theorem keeps_propagateLoop {immedOnly : Bool} {n : ℕ} {ops' : List Oper} {change : ℕ}
    (hops : Unguarded ops) (h : propagateLoop t immedOnly n ops = .ok (ops', change)) :
    Keeps m ops ops' := by
  induction n generalizing ops ops' change with
  | zero => cases h; exact ⟨hops, fun s ↦ rfl⟩
  | succ n ih =>
    cases ops with
    | nil => cases h; exact ⟨hops, fun s ↦ rfl⟩
    | cons opA rest =>
      obtain ⟨hpred, hrest⟩ := unguarded_cons.1 hops
      -- the cases that go on with the rest of the block as it is
      have hplain {change : ℕ} (h : (propagateLoop t immedOnly n rest >>= fun r ↦
          Except.ok (opA :: r.1, r.2)) = .ok (ops', change)) : Keeps m (opA :: rest) ops' := by
        obtain ⟨⟨rest', change'⟩, hloop, h⟩ := Run.bind_eq_ok.1 h
        cases h
        exact (ih hrest hloop).cons hpred
      rw [propagateLoop] at h
      split at h
      · rename_i c d hopc hsrc hdest
        split_ifs at h with hmatch
        · obtain ⟨⟨rest', change'⟩, hloop, h⟩ := Run.bind_eq_ok.1 h
          cases h
          rw [Bool.and_eq_true] at hmatch
          have hkeeps := ih (unguarded_propagateFrom opA hmatch.1 hrest []) hloop
          refine ⟨unguarded_cons.2 ⟨hpred, hkeeps.1⟩, fun s ↦ ?_⟩
          rw [run_cons, run_cons, hkeeps.2]
          refine run_propagateFrom opA hmatch.1 hrest [] fun _ ↦ ?_
          rw [exec_reg_dest hdest (guard_of_pred hpred), value_eq_of_isConstant hmatch.1 _ s]
          simp only [Oper.result, hopc, Opcode.eval, Oper.srcValues, List.getD_eq_getElem?_getD,
            List.getElem?_map, hsrc, Option.map_some, Option.getD_some]
        · exact hplain h
      · split_ifs at h
        exact hplain h
      · exact hplain h

/-! ### Folding -/

/-- The values of the first two sources. -/
def sourceValue (o : Oper) (i : ℕ) : BitVec 64 :=
  match o.src[i]? with
  | some (.int v) => v
  | _ => 0

/-- An operation that folding evaluates has operands that fit. -/
def FoldFits (t : Target) (o : Oper) : Prop :=
  t.doNotConstantFold o.id = false → isArithmetic o.opc = true →
    o.src.all Lcode.Operand.isIntConstant = true → noExceptions o = .ok true →
      OperandsFit o.opc (sourceValue o 0) (sourceValue o 1)

instance (t : Target) (o : Oper) : Decidable (FoldFits t o) := by
  unfold FoldFits
  infer_instance

/-- An operand whose value is taken is an integer. -/
theorem intValue_eq_ok {msg : String} {i : ℕ} {v : BitVec 64}
    (h : intValue msg o.src[i]? = .ok v) : o.src[i]? = some (.int v) ∧ sourceValue o i = v := by
  rw [sourceValue]
  cases hsrc : o.src[i]? with
  | none => rw [hsrc] at h; cases h
  | some a =>
    rw [hsrc] at h
    cases a <;> cases h
    exact ⟨rfl, rfl⟩

/-- The value of an integer operand, as the machine reads it. -/
theorem srcValues_getD {i : ℕ} {v : BitVec 64} (h : o.src[i]? = some (.int v)) (s : Regs) :
    (o.srcValues m s).getD i 0 = v.setWidth 32 := by
  simp [Oper.srcValues, List.getD_eq_getElem?_getD, h]

/-- A unary operation reads its first source only. -/
theorem eval_unary {opc : Opcode} (h : isUnary opc = true) (a b b' : BitVec 32) :
    opc.eval a b = opc.eval a b' := by
  cases opc <;> first | rfl | cases h

/-- What `L_evaluate_int_arithmetic` returns is what the machine computes. -/
theorem result_of_evaluate {v : BitVec 64} (hfit : OperandsFit o.opc (sourceValue o 0) (sourceValue o 1))
    (h : evaluateIntArithmetic o = .ok v) (harith : isArithmetic o.opc = true) (s : Regs) :
    o.result m s = v.setWidth 32 := by
  obtain ⟨s₁, h₁, h⟩ := Run.bind_eq_ok.1 h
  obtain ⟨hsrc₁, hval₁⟩ := intValue_eq_ok h₁
  have hresult : o.result m s =
      o.opc.eval ((o.srcValues m s).getD 0 0) ((o.srcValues m s).getD 1 0) := by
    rw [Oper.result]
    split
    · rename_i hopc
      rw [hopc] at harith
      cases harith
    · rfl
  rw [hresult, srcValues_getD hsrc₁]
  dsimp only at h
  split_ifs at h with hunary
  · have hfit₀ : OperandsFit o.opc s₁ 0 := by
      revert hunary
      cases o.opc <;> intro hunary <;> trivial
    rw [eval_unary hunary _ _ (BitVec.setWidth 32 0), setWidth_evaluate hfit₀ h]
  · obtain ⟨s₂, h₂, h⟩ := Run.bind_eq_ok.1 h
    obtain ⟨hsrc₂, hval₂⟩ := intValue_eq_ok h₂
    rw [srcValues_getD hsrc₂, setWidth_evaluate (hval₁ ▸ hval₂ ▸ hfit) h]

/-- **Folding one operation** whose operands fit does not change what it does. -/
theorem exec_foldOper {o' : Oper} {change : ℕ} (hfit : FoldFits t o)
    (h : foldOper t o = .ok (o', change)) (s : Regs) : o'.exec m s = o.exec m s := by
  rw [foldOper] at h
  split_ifs at h with hattr harith
  · cases h; rfl
  · rw [Bool.and_eq_true] at harith
    obtain ⟨ok, hok, h⟩ := Run.bind_eq_ok.1 h
    split_ifs at h with htrue
    · obtain ⟨imval, heval, h⟩ := Run.bind_eq_ok.1 h
      obtain ⟨o₁, hconv, h⟩ := Run.bind_eq_ok.1 h
      cases h
      rw [convertToMove] at hconv
      split_ifs at hconv
      cases hconv
      have hoper := hfit (Bool.eq_false_of_not_eq_true hattr) harith.1 harith.2 (htrue ▸ hok)
      have hresult := result_of_evaluate (m := m) hoper heval harith.1 s
      have hmov : Oper.result m s { o with opc := .mov, src := [.int imval] } = o.result m s :=
        hresult.symm
      rw [Oper.exec, Oper.exec, hmov]
      cases hopc : o.opc with
      | other n => rw [hopc] at harith; cases harith.1
      | _ => rfl
    · cases h; rfl
  · cases h; rfl

/-- Folding keeps the guard. -/
theorem foldOper_pred {o' : Oper} {change : ℕ} (h : foldOper t o = .ok (o', change)) :
    o'.pred = o.pred := by
  rw [foldOper] at h
  split_ifs at h
  · cases h; rfl
  · obtain ⟨ok, -, h⟩ := Run.bind_eq_ok.1 h
    split_ifs at h
    · obtain ⟨imval, -, h⟩ := Run.bind_eq_ok.1 h
      obtain ⟨o₁, hconv, h⟩ := Run.bind_eq_ok.1 h
      cases h
      rw [convertToMove] at hconv
      split_ifs at hconv
      cases hconv
      rfl
    · cases h; rfl
  · cases h; rfl

/-- **The folding pass** on operations whose operands fit. -/
theorem keeps_localConstantFolding {ops' : List Oper} {change : ℕ} (hops : Unguarded ops)
    (hfit : ∀ o ∈ ops, FoldFits t o) (h : localConstantFolding t ops = .ok (ops', change)) :
    Keeps m ops ops' := by
  induction ops generalizing ops' change with
  | nil => cases h; exact ⟨hops, fun s ↦ rfl⟩
  | cons o ops ih =>
    obtain ⟨hpred, hops⟩ := unguarded_cons.1 hops
    obtain ⟨⟨o', change₁⟩, hfold, h⟩ := Run.bind_eq_ok.1 h
    obtain ⟨⟨os', change₂⟩, hrest, h⟩ := Run.bind_eq_ok.1 h
    cases h
    have hkeeps := ih hops (fun o ho ↦ hfit o (List.mem_cons_of_mem _ ho)) hrest
    refine ⟨unguarded_cons.2 ⟨(foldOper_pred hfold).trans hpred, hkeeps.1⟩, fun s ↦ ?_⟩
    rw [run_cons, run_cons, exec_foldOper (hfit o List.mem_cons_self) hfold, hkeeps.2]

/-- Taking the value of an operand does not divide by zero. -/
theorem intValue_ne_overflow {msg : String} {a : Option Operand} :
    intValue msg a ≠ .error .overflow := by
  rcases a with _ | (i | r | l) <;> exact fun h ↦ (nomatch h)

/-- A division by something else is not one by zero. -/
theorem divide64_ne_overflow {f : BitVec 64 → BitVec 64 → BitVec 64} {s₁ s₂ : BitVec 64}
    (h : s₂ ≠ 0) : divide64 f s₁ s₂ ≠ .error .overflow := by
  rw [divide64, if_neg h]
  intro h
  cases h

/-- The opcodes that `L_no_exceptions` looks at. -/
theorem evaluateCase_ne_overflow {opc : Opcode} {s₁ s₂ : BitVec 64}
    (h : opc = .div ∨ opc = .divU ∨ opc = .rem ∨ opc = .remU → s₂ ≠ 0) :
    evaluateCase opc s₁ s₂ ≠ .error .overflow := by
  cases opc with
  | div | divU | rem | remU => exact divide64_ne_overflow (h (by simp))
  | _ => exact fun h ↦ (nomatch h)

/-- What passes the test for exceptions has a divisor other than zero. -/
theorem noExceptions_divisor {s₂ : BitVec 64} (h : noExceptions o = .ok true)
    (hsrc : o.src[1]? = some (.int s₂))
    (hopc : o.opc = .div ∨ o.opc = .divU ∨ o.opc = .rem ∨ o.opc = .remU) : s₂ ≠ 0 := by
  rw [noExceptions, hsrc] at h
  rcases hopc with hopc | hopc | hopc | hopc <;> rw [hopc] at h <;>
    exact of_decide_eq_true (Except.ok.inj h)

/-- An operation that `L_no_exceptions` lets through is evaluated without a division by zero. -/
theorem evaluate_ne_overflow (h : noExceptions o = .ok true) :
    evaluateIntArithmetic o ≠ .error .overflow := by
  intro he
  obtain he | ⟨s₁, -, he⟩ := Run.bind_eq_error.1 he
  · exact intValue_ne_overflow he
  · dsimp only at he
    split_ifs at he with hunary
    · refine evaluateCase_ne_overflow (fun hopc ↦ ?_) he
      rcases hopc with hopc | hopc | hopc | hopc <;> rw [hopc] at hunary <;> cases hunary
    · obtain he | ⟨s₂, h₂, he⟩ := Run.bind_eq_error.1 he
      · exact intValue_ne_overflow he
      · exact evaluateCase_ne_overflow (noExceptions_divisor h (intValue_eq_ok h₂).1) he

/-- The test for exceptions does not divide by zero. -/
theorem noExceptions_ne_overflow : noExceptions o ≠ .error .overflow := by
  have hdivisor {msg : String} {a : Option Operand} :
      (intValue msg a >>= fun s₂ ↦ Except.ok (decide (s₂ ≠ 0))) ≠ .error .overflow := by
    intro h
    obtain h | ⟨s₂, -, h⟩ := Run.bind_eq_error.1 h
    · exact intValue_ne_overflow h
    · cases h
  rw [noExceptions]
  split
  · exact hdivisor
  · exact hdivisor
  · exact hdivisor
  · exact hdivisor
  · exact fun h ↦ (nomatch h)

/-- **Folding never divides by zero.** -/
theorem foldOper_ne_overflow : foldOper t o ≠ .error .overflow := by
  intro h
  rw [foldOper] at h
  split_ifs at h
  obtain h | ⟨ok, hok, h⟩ := Run.bind_eq_error.1 h
  · exact noExceptions_ne_overflow h
  · split_ifs at h with htrue
    · subst htrue
      obtain h | ⟨imval, -, h⟩ := Run.bind_eq_error.1 h
      · exact evaluate_ne_overflow hok h
      · obtain h | ⟨o', -, h⟩ := Run.bind_eq_error.1 h
        · rw [convertToMove] at h
          split_ifs at h <;> cases h
        · cases h

/-- Folding divides by no zero. -/
theorem localConstantFolding_ne_overflow : localConstantFolding t ops ≠ .error .overflow := by
  induction ops with
  | nil => exact fun h ↦ (nomatch h)
  | cons o ops ih =>
    intro h
    obtain h | ⟨r, -, h⟩ := Run.bind_eq_error.1 h
    · exact foldOper_ne_overflow h
    · obtain h | ⟨r', -, h⟩ := Run.bind_eq_error.1 h
      · exact ih h
      · cases h

/-- Nor does propagating. -/
theorem propagateLoop_ne_overflow {immedOnly : Bool} {n : ℕ} :
    propagateLoop t immedOnly n ops ≠ .error .overflow := by
  induction n generalizing ops with
  | zero => exact fun h ↦ (nomatch h)
  | succ n ih =>
    cases ops with
    | nil => exact fun h ↦ (nomatch h)
    | cons opA rest =>
      have hstep {l : List Oper} {f : List Oper × ℕ → List Oper × ℕ} :
          (propagateLoop t immedOnly n l >>= fun r ↦ .ok (f r)) ≠ .error .overflow := by
        intro h
        obtain h | ⟨r, -, h⟩ := Run.bind_eq_error.1 h
        · exact ih h
        · cases h
      rw [propagateLoop]
      split
      · split_ifs
        · exact hstep (f := fun r ↦ (opA :: r.1, _ + r.2))
        · exact hstep (f := fun r ↦ (opA :: r.1, r.2))
      · split_ifs
        · exact fun h ↦ (nomatch h)
        · exact hstep (f := fun r ↦ (opA :: r.1, r.2))
      · exact hstep (f := fun r ↦ (opA :: r.1, r.2))

/-! ### Sequences of passes -/

/-- What a pass needs of the block that it starts from. -/
def PassFits (t : Target) (ops : List Oper) : Pass → Prop
  | .propagate _ => True
  | .fold => ∀ o ∈ ops, FoldFits t o

/-- Every pass of a sequence has what it needs. -/
def PassesFit (t : Target) : List Pass → List Oper → Prop
  | [], _ => True
  | p :: ps, ops => PassFits t ops p ∧ ∀ ops', p.apply t ops = .ok ops' → PassesFit t ps ops'

instance (t : Target) (ops : List Oper) : ∀ p : Pass, Decidable (PassFits t ops p)
  | .propagate _ => .isTrue trivial
  | .fold => inferInstanceAs (Decidable (∀ o ∈ ops, FoldFits t o))

/-- The passes are run to decide it. -/
instance decidablePassesFit (t : Target) : ∀ passes ops, Decidable (PassesFit t passes ops)
  | [], _ => .isTrue trivial
  | p :: ps, ops =>
    match h : p.apply t ops with
    | .error e => decidable_of_iff (PassFits t ops p)
        ⟨fun hp ↦ ⟨hp, fun ops' h' ↦ by rw [h] at h'; cases h'⟩, And.left⟩
    | .ok ops' =>
      have := decidablePassesFit t ps ops'
      decidable_of_iff (PassFits t ops p ∧ PassesFit t ps ops')
        ⟨fun hp ↦ ⟨hp.1, fun ops'' h' ↦ by rw [h] at h'; cases h'; exact hp.2⟩,
          fun hp ↦ ⟨hp.1, hp.2 _ h⟩⟩

/-- Every pass keeps the meaning of a block without guards that meets its condition. -/
theorem keeps_apply {p : Pass} {ops' : List Oper} (hops : Unguarded ops) (hfit : PassFits t ops p)
    (h : p.apply t ops = .ok ops') : Keeps m ops ops' := by
  cases p with
  | propagate immedOnly =>
    obtain ⟨⟨ops₁, change⟩, hrun, rfl⟩ := Run.map_eq_ok.1 h
    exact keeps_propagateLoop hops hrun
  | fold =>
    obtain ⟨⟨ops₁, change⟩, hrun, rfl⟩ := Run.map_eq_ok.1 h
    exact keeps_localConstantFolding hops hfit hrun

/-- No pass divides by zero. -/
theorem apply_ne_overflow {p : Pass} : p.apply t ops ≠ .error .overflow := by
  have hmap {x : Run (List Oper × ℕ)} (hx : x ≠ .error .overflow) :
      Prod.fst <$> x ≠ .error .overflow := by
    cases x with
    | error e => exact fun h ↦ hx (congrArg Except.error (Except.error.inj h))
    | ok r => exact fun h ↦ (nomatch h)
  cases p with
  | propagate immedOnly => exact hmap propagateLoop_ne_overflow
  | fold => exact hmap localConstantFolding_ne_overflow

/-- **Propagation and folding in any order** leave in every register, from every state, what the
block leaves there, if each time the operations that are folded have operands that fit; and never is
there a division by zero. -/
theorem run_eq_of_runPasses {passes : List Pass} (hops : Unguarded ops)
    (hfit : PassesFit t passes ops) : runPasses t passes ops ≠ .error .overflow ∧
      ∀ ops', runPasses t passes ops = .ok ops' → ∀ m s, run m ops' s = run m ops s := by
  induction passes generalizing ops with
  | nil =>
    refine ⟨fun h ↦ (nomatch h), fun ops' h m s ↦ ?_⟩
    cases h
    rfl
  | cons p ps ih =>
    obtain ⟨hfirst, hrest⟩ := hfit
    rw [runPasses, List.foldlM_cons]
    constructor
    · intro h
      obtain h | ⟨ops₁, hp, h⟩ := Run.bind_eq_error.1 h
      · exact apply_ne_overflow h
      · exact (ih (keeps_apply (m := plainMachine) hops hfirst hp).1 (hrest ops₁ hp)).1 h
    · intro ops' h m s
      obtain ⟨ops₁, hp, h⟩ := Run.bind_eq_ok.1 h
      have hkeeps := keeps_apply (m := m) hops hfirst hp
      rw [(ih hkeeps.1 (hrest ops₁ hp)).2 ops' h m s, hkeeps.2]

/-- A target that refuses nothing. -/
def permissive : Target where
  numOperRequired _ := 1
  doNotConstantFold _ := false
  volatile _ := false
  canChangeSrcOperand _ _ := true
  fragileMacro _ := false
  syncOpcode _ := false
  subroutineCall _ := false
  supersetPredicateOps _ _ := true
  intersectingPredicatesOps _ _ := true

/-- A quotient of a constant, its lower byte shifted and divided, and operations on a register that is not
known. -/
def constBlock : List Oper :=
  [⟨1, .mov, some 1, [.int (-1000)], none⟩, ⟨2, .div, some 2, [.reg 1, .int 7], none⟩,
    ⟨3, .sxtC, some 3, [.reg 2], none⟩, ⟨4, .lsl, some 4, [.reg 3, .int 3], none⟩,
    ⟨5, .rem, some 5, [.reg 4, .reg 1], none⟩, ⟨6, .add, some 1, [.reg 5, .reg 9], none⟩,
    ⟨7, .sub, some 6, [.reg 1, .reg 2], none⟩]

/-- The block after four times propagation and folding. -/
def constFolded : List Oper :=
  [⟨1, .mov, some 1, [.int (-1000)], none⟩, ⟨2, .mov, some 2, [.int (-142)], none⟩,
    ⟨3, .mov, some 3, [.int 114], none⟩, ⟨4, .mov, some 4, [.int 912], none⟩,
    ⟨5, .mov, some 5, [.int 912], none⟩, ⟨6, .add, some 1, [.int 912, .reg 9], none⟩,
    ⟨7, .sub, some 6, [.reg 1, .int (-142)], none⟩]

/-- A block that three constants and a division fold to one. -/
theorem run_eq_of_runPasses_constBlock :
    runPasses permissive [.propagate false, .fold, .propagate false, .fold, .propagate true, .fold,
        .propagate false, .fold, .propagate false] constBlock = .ok constFolded ∧
      ∀ m s, run m constFolded s = run m constBlock s := by
  have hrun : runPasses permissive [.propagate false, .fold, .propagate false, .fold,
      .propagate true, .fold, .propagate false, .fold, .propagate false] constBlock =
        .ok constFolded := by
    decide +kernel
  exact ⟨hrun, (run_eq_of_runPasses (by unfold Unguarded; decide) (by decide +kernel)).2 _ hrun⟩

/-- `mov r1 = 2147483647; add r2 = r1, 1; div r3 = r2, 2`. -/
def overflowBlock : List Oper :=
  [⟨1, .mov, some 1, [.int 2147483647], none⟩, ⟨2, .add, some 2, [.reg 1, .int 1], none⟩,
    ⟨3, .div, some 3, [.reg 2, .int 2], none⟩]

/-- The block after both passes ran twice: the sum is kept as a 64-bit value and divided as one. -/
def overflowFolded : List Oper :=
  [⟨1, .mov, some 1, [.int 2147483647], none⟩, ⟨2, .mov, some 2, [.int 2147483648], none⟩,
    ⟨3, .mov, some 3, [.int 1073741824], none⟩]

/-- A sum that leaves its range is folded to another value than the machine computes. -/
theorem not_run_eq_overflowBlock :
    runPasses permissive [.propagate false, .fold, .propagate false, .fold] overflowBlock =
        .ok overflowFolded ∧
      ∀ s, (run plainMachine overflowBlock s).reg 3 = -1073741824 ∧
        (run plainMachine overflowFolded s).reg 3 = 1073741824 := by
  refine ⟨by decide +kernel, fun s ↦ ⟨?_, rfl⟩⟩
  simp [overflowBlock, Oper.exec, Oper.guard, Oper.result, Oper.srcValues, Opcode.eval]

end OpenImpact.Lopti
