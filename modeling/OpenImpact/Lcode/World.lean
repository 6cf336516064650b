import OpenImpact.Lcode.Oper
import OpenImpact.Foundation.StraightLine

/-!
# Blocks with guards, calls and a memory

The machine of `Lcode.Oper` with what lies around a block: operations outside the integer opcodes read
and write a memory of any type, in which the world may also record what it has seen of the block, and
calls change registers other than their destination. The guards of a block take fixed values in a run;
`Oper.holds` names them by the operations' `id`s, as the nodes of the predicate graph do.
-/

namespace OpenImpact.Lcode

open Foundation

/-- What a block does not fix: the values of labels, and by an operation's `id` the value, the predicates
and the memory that it leaves, and the registers that it changes beside its destination. -/
structure World (μ : Type) where
  label : ℕ → BitVec 32
  other : ℕ → List (BitVec 32) → μ → BitVec 32
  preds : ℕ → List (BitVec 32) → μ → (ℕ → Bool) → ℕ → Bool
  clobbers : ℕ → ℕ → Bool
  call : ℕ → List (BitVec 32) → μ → ℕ → BitVec 32
  memory : ℕ → List (BitVec 32) → Regs → μ → μ

/-- Registers and memory. -/
structure State (μ : Type) where
  regs : Regs
  mem : μ

variable {μ : Type}

/-- The machine as it is with a memory. -/
def World.machine (w : World μ) (mem : μ) : Machine where
  label := w.label
  other id vals := w.other id vals mem
  preds id vals := w.preds id vals mem

/-- What a call leaves in the registers. -/
def World.afterCall (w : World μ) (o : Oper) (s : State μ) (after : Regs) : Regs where
  reg r :=
    if w.clobbers o.id r then w.call o.id (o.srcValues (w.machine s.mem) s.regs) s.mem r
    else after.reg r
  pred := after.pred

/-- One operation. -/
def Oper.step (w : World μ) (s : State μ) (o : Oper) : State μ :=
  match o.opc with
  | .other _ =>
    if o.guard s.regs then
      ⟨w.afterCall o s (o.exec (w.machine s.mem) s.regs),
        w.memory o.id (o.srcValues (w.machine s.mem) s.regs) s.regs s.mem⟩
    else ⟨o.exec (w.machine s.mem) s.regs, s.mem⟩
  | _ => ⟨o.exec (w.machine s.mem) s.regs, s.mem⟩

/-- Whether the guard of an operation holds in a run in which the predicates of the operations are as
`g` says. -/
def Oper.holds (g : ℕ → Bool) (o : Oper) : Bool :=
  match o.pred with
  | none => true
  | some _ => g o.id

/-- The guard is as `g` says. -/
def Guarded (g : ℕ → Bool) (s : State μ) (o : Oper) : Prop :=
  o.guard s.regs = o.holds g

/-- An operation outside the integer opcodes. -/
def Opcode.isOther : Opcode → Bool
  | .other _ => true
  | _ => false

theorem isOther_iff {opc : Opcode} : opc.isOther = true ↔ ∃ n, opc = .other n := by
  cases opc <;> simp [Opcode.isOther]

/-- An operation that runs and changes one of the registers. -/
def Touches (w : World μ) (g : ℕ → Bool) (rs : List ℕ) (o : Oper) : Prop :=
  o.holds g = true ∧ ∃ r ∈ rs, o.dest = some r ∨ o.opc.isOther = true ∧ w.clobbers o.id r = true

/-! ### Steps -/

section Step

variable {w : World μ} {g : ℕ → Bool} {s : State μ} {o : Oper}

theorem holds_of_pred (h : o.pred = none) : o.holds g = true := by
  rw [Oper.holds, h]

/-- An operation without a guard is as any `g` says. -/
theorem guarded_of_pred (h : o.pred = none) : Guarded g s o := by
  rw [Guarded, guard_of_pred h, holds_of_pred h]

/-- An operation with the same values of its sources does the same. -/
theorem step_congr {o' : Oper} (hid : o'.id = o.id) (hopc : o'.opc = o.opc) (hdest : o'.dest = o.dest)
    (hpred : o'.pred = o.pred)
    (hsrc : o'.srcValues (w.machine s.mem) s.regs = o.srcValues (w.machine s.mem) s.regs) :
    o'.step w s = o.step w s := by
  have hresult : o'.result (w.machine s.mem) s.regs = o.result (w.machine s.mem) s.regs := by
    rw [Oper.result, Oper.result, hopc, hid, hsrc]
  have hguard : o'.guard s.regs = o.guard s.regs := by rw [Oper.guard, Oper.guard, hpred]
  have hexec : o'.exec (w.machine s.mem) s.regs = o.exec (w.machine s.mem) s.regs := by
    rw [Oper.exec, Oper.exec, hdest, hopc, hid, hsrc, hresult, hguard]
  rw [Oper.step, Oper.step, hopc, hguard, hexec, hsrc, hid, World.afterCall, World.afterCall, hid, hsrc]

/-- The world cannot tell an operation's sources from others. -/
structure World.SameOn (w : World μ) (id : ℕ) (vals vals' : List (BitVec 32)) : Prop where
  other : ∀ mem, w.other id vals' mem = w.other id vals mem
  preds : ∀ mem, w.preds id vals' mem = w.preds id vals mem
  call : ∀ mem, w.call id vals' mem = w.call id vals mem
  memory : ∀ mem regs, w.memory id vals' regs mem = w.memory id vals regs mem

/-- An operation whose sources the world cannot tell from the old ones does the same. -/
theorem step_of_sameOn {o' : Oper} {n : ℕ} (hid : o'.id = o.id) (hopc : o'.opc = o.opc)
    (hdest : o'.dest = o.dest) (hpred : o'.pred = o.pred) (hother : o.opc = .other n)
    (h : w.SameOn o.id (o.srcValues (w.machine s.mem) s.regs)
      (o'.srcValues (w.machine s.mem) s.regs)) : o'.step w s = o.step w s := by
  have hguard : o'.guard s.regs = o.guard s.regs := by rw [Oper.guard, Oper.guard, hpred]
  have hresult : o'.result (w.machine s.mem) s.regs = o.result (w.machine s.mem) s.regs := by
    rw [Oper.result, Oper.result, hopc, hother, hid]
    exact h.other s.mem
  have hpreds : (w.machine s.mem).preds o.id (o'.srcValues (w.machine s.mem) s.regs) =
      (w.machine s.mem).preds o.id (o.srcValues (w.machine s.mem) s.regs) := h.preds s.mem
  have hexec : o'.exec (w.machine s.mem) s.regs = o.exec (w.machine s.mem) s.regs := by
    rw [Oper.exec, Oper.exec, hdest, hopc, hother, hid, hresult, hguard]
    dsimp only
    rw [hpreds]
  rw [Oper.step, Oper.step, hopc, hother, hguard, hexec, hid]
  dsimp only
  rw [h.memory, World.afterCall, World.afterCall, hid, h.call]

/-- A register after an operation: what the operation writes, unless the operation changes it beside its
destination. -/
theorem step_reg_of_not_clobbers {r : ℕ}
    (h : o.opc.isOther = true → o.guard s.regs = true → w.clobbers o.id r = false) :
    (o.step w s).regs.reg r = (o.exec (w.machine s.mem) s.regs).reg r := by
  rw [Oper.step]
  split
  · rename_i n hopc
    have h := h (by rw [hopc]; rfl)
    split_ifs with hguard
    · simp [World.afterCall, h hguard]
    · rfl
  · rfl

/-- What an operation does not touch stays. -/
theorem step_reg_of_not_touches {rs : List ℕ} (hg : Guarded g s o) (h : ¬ Touches w g rs o) {r : ℕ}
    (hr : r ∈ rs) : (o.step w s).regs.reg r = s.regs.reg r := by
  cases hguard : o.guard s.regs with
  | false =>
    rw [step_reg_of_not_clobbers (by simp [hguard]), exec_reg_of_guard hguard]
  | true =>
    have hholds : o.holds g = true := hg.symm.trans hguard
    have hnone : ¬ (o.dest = some r ∨ o.opc.isOther = true ∧ w.clobbers o.id r = true) :=
      fun hor ↦ h ⟨hholds, r, hr, hor⟩
    rw [not_or, not_and, Bool.not_eq_true] at hnone
    rw [step_reg_of_not_clobbers fun hother _ ↦ hnone.2 hother, exec_reg_of_dest_ne hnone.1]

/-- An operation that runs leaves its result. -/
theorem step_reg_dest {d : ℕ} (hg : Guarded g s o) (h : o.holds g = true) (hdest : o.dest = some d)
    (hcall : o.opc.isOther = true → w.clobbers o.id d = false) :
    (o.step w s).regs.reg d = o.result (w.machine s.mem) s.regs := by
  rw [step_reg_of_not_clobbers fun hother _ ↦ hcall hother, exec_reg_dest hdest (hg.trans h)]

/-- Outside the other opcodes an operation leaves the predicates and the memory. -/
theorem step_of_not_isOther (h : o.opc.isOther = false) :
    o.step w s = ⟨o.exec (w.machine s.mem) s.regs, s.mem⟩ := by
  rw [Oper.step]
  split
  · rename_i n hopc
    rw [hopc] at h
    cases h
  · rfl

theorem exec_pred_of_not_isOther {m : Machine} {regs : Regs} (h : o.opc.isOther = false) :
    (o.exec m regs).pred = regs.pred := by
  simp only [Oper.exec]
  cases hopc : o.opc with
  | other n => rw [hopc] at h; cases h
  | _ => rfl

theorem regs_ext {a b : Regs} (hreg : a.reg = b.reg) (hpred : a.pred = b.pred) : a = b := by
  cases a
  cases b
  cases hreg
  cases hpred
  rfl

/-- An integer operation may be replaced by another one that writes the same value. -/
theorem step_of_result {o' : Oper} (hdest : o'.dest = o.dest) (hpred : o'.pred = o.pred)
    (hother : o.opc.isOther = false) (hother' : o'.opc.isOther = false)
    (h : o.guard s.regs = true →
      o'.result (w.machine s.mem) s.regs = o.result (w.machine s.mem) s.regs) :
    o'.step w s = o.step w s := by
  have hguard : o'.guard s.regs = o.guard s.regs := by rw [Oper.guard, Oper.guard, hpred]
  have hexec : o'.exec (w.machine s.mem) s.regs = o.exec (w.machine s.mem) s.regs := by
    refine regs_ext ?_ ((exec_pred_of_not_isOther hother').trans (exec_pred_of_not_isOther hother).symm)
    simp only [Oper.exec, hdest, hguard]
    cases o.dest with
    | none => rfl
    | some d =>
      dsimp only
      split_ifs with hrun
      · rw [h hrun]
      · rfl
  rw [step_of_not_isOther hother, step_of_not_isOther hother', hexec]

end Step

end OpenImpact.Lcode
