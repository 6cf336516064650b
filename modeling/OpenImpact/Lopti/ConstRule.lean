import OpenImpact.Lopti.ConstPropCorrect
import OpenImpact.Lopti.Queries

/-!
# Constants in a block with guards and calls

Constant propagation goes by rules as the other passes over a block do, so it keeps the run of a block
whatever its guards and calls are (`rewrites_propagateLoop`).
-/

namespace OpenImpact.Lopti

open Foundation Lcode

section Constants

variable (t : Target)

/-- The inner loop of constant propagation. -/
def constRule (opA : Oper) (d : ℕ) (c : Operand) : Rule Halt Oper where
  skip between opB :=
    .reg d ∉ opB.src || !t.canChangeSrcOperand opB d || !t.supersetPredicateOps opA opB ||
      !noDefsBetween t d between opB || t.doNotConstantFold opB.id || carryOpcode opB.opc
  stop between := !noDanger t d (opA :: between)
  rewrite opB := .ok (replaceSources t d c opB)

/-- One operation in the outer loop of constant propagation. -/
def constStart (immedOnly : Bool) (_prevs : List Oper) (opA : Oper) (rest : List Oper) :
    Run (Option (Rule Halt Oper)) :=
  match opA.opc, opA.src[0]?, opA.dest with
  | .mov, some c, some d =>
    .ok (if isConstant c && (!immedOnly || c.isIntConstant) then some (constRule t opA d c) else none)
  | .mov, some c, none =>
    if isConstant c && (!immedOnly || c.isIntConstant) && !rest.isEmpty then
      .error (.punt "L_is_src_operand: NULL operand")
    else .ok none
  | _, _, _ => .ok none

variable {t} {immedOnly : Bool}

theorem sweep_constRule (opA : Oper) (d : ℕ) (c : Operand) (between rest : List Oper) :
    (constRule t opA d c).sweep between rest = .ok (propagateFrom t opA d c between rest) := by
  induction rest generalizing between with
  | nil => rfl
  | cons opB rest ih =>
    rw [Rule.sweep, propagateFrom]
    show _ = Except.ok (if (constRule t opA d c).skip between opB = true then _
      else if (constRule t opA d c).stop between = true then _ else _)
    split_ifs
    · rw [ih]
      rfl
    · rfl
    · show ((constRule t opA d c).sweep (between ++ [(replaceSources t d c opB).1]) rest >>= fun r ↦
        Except.ok ((replaceSources t d c opB).1 :: r.1, (replaceSources t d c opB).2 + r.2)) = _
      rw [ih]
      rfl

theorem constStart_eq_some {prevs rest : List Oper} {opA : Oper} {r : Rule Halt Oper}
    (h : constStart t immedOnly prevs opA rest = .ok (some r)) :
    ∃ c d, isConstant c = true ∧ opA.opc = .mov ∧ opA.src[0]? = some c ∧ opA.dest = some d ∧
      r = constRule t opA d c := by
  rw [constStart] at h
  split at h
  · rename_i c d hopc hsrc hdest
    split_ifs at h with hmatch
    · cases h
      exact ⟨c, d, (Bool.and_eq_true_iff.1 hmatch).1, hopc, hsrc, hdest, rfl⟩
    · cases h
  · split_ifs at h
    cases h
  · cases h

/-- Constant propagation goes by its rules. -/
theorem sweepLoop_constStart (prevs : List Oper) {n : ℕ} (ops : List Oper) :
    sweepLoop (constStart t immedOnly) prevs n ops = propagateLoop t immedOnly n ops := by
  induction n generalizing prevs ops with
  | zero => rfl
  | succ n ih =>
    cases ops with
    | nil => rfl
    | cons opA rest =>
      rw [propagateLoop]
      split
      · rename_i c d hopc hsrc hdest
        have hstart : constStart t immedOnly prevs opA rest =
            .ok (if isConstant c && (!immedOnly || c.isIntConstant) then some (constRule t opA d c)
              else none) := by
          rw [constStart, hopc, hsrc, hdest]
        split_ifs at hstart ⊢
        · rw [sweepLoop_of_some hstart (sweep_constRule opA d c [] rest), ih]
        · rw [sweepLoop_of_none hstart, ih]
      · rename_i c hopc hsrc hdest
        have hstart : constStart t immedOnly prevs opA rest =
            if isConstant c && (!immedOnly || c.isIntConstant) && !rest.isEmpty then
              .error (.punt "L_is_src_operand: NULL operand")
            else .ok none := by
          rw [constStart, hopc, hsrc, hdest]
        split_ifs at hstart ⊢
        · exact sweepLoop_of_error hstart
        · rw [sweepLoop_of_none hstart, ih]
      · rename_i hsome hnone
        have hstart : constStart t immedOnly prevs opA rest = .ok none := by
          rw [constStart]
          split
          · rename_i c d hopc hsrc hdest
            exact absurd hdest (hsome c d hopc hsrc)
          · rename_i c hopc hsrc hdest
            exact absurd hdest (hnone c hopc hsrc)
          · rfl
        rw [sweepLoop_of_none hstart, ih]

end Constants

section Propagation

variable {μ : Type} {t : LocalTarget} {w : World μ} {g : ℕ → Bool} {s : State μ} {d : ℕ}
  {c : Operand} {opA opB : Oper} {ops : List Oper}
  {arith : ℕ → ℕ × ℕ → List (BitVec 32) → BitVec 32}

/-- The destination of a move of a constant that has run holds the constant. -/
def ConstHolds (w : World μ) (g : ℕ → Bool) (opA : Oper) (d : ℕ) (c : Operand) (s : State μ) : Prop :=
  opA.holds g = true → s.regs.reg d = c.value (w.machine s.mem) s.regs

/-- A constant has the same value whatever the registers and the memory are. -/
theorem value_eq_of_constant (h : isConstant c = true) (s s' : State μ) :
    c.value (w.machine s.mem) s.regs = c.value (w.machine s'.mem) s'.regs := by
  cases c with
  | int i => rfl
  | label l => rfl
  | reg r => cases h

/-- Only the sources are replaced. -/
theorem replaceSources_eq (hc : isConstant c = true) (opB : Oper) :
    (replaceSources t.toTarget d c opB).1 =
      { opB with src := (replaceSources t.toTarget d c opB).1.src } := by
  let regs : Regs := ⟨fun _ ↦ c.value plainMachine ⟨fun _ ↦ 0, fun _ ↦ true⟩, fun _ ↦ true⟩
  have h : SameButSrc plainMachine regs opB (replaceSources t.toTarget d c opB).1 :=
    sameButSrc_replaceSources (value_eq_of_isConstant hc _ regs) opB
  obtain ⟨hid, hopc, hdest, hpred, -⟩ := h
  generalize (replaceSources t.toTarget d c opB).1 = o at *
  cases o
  cases hid
  cases hopc
  cases hdest
  cases hpred
  rfl

/-- The rule after a move of a constant is sound. -/
theorem constRule_sound (hl : Lawful t g) (hc : isConstant c = true) (hmov : opA.opc = .mov)
    (hsrc : opA.src[0]? = some c) (hdest : opA.dest = some d) :
    (constRule t.toTarget opA d c).Sound (Oper.step w) (Runs t w g arith) (fun _ ↦ True) opA
      (ConstHolds w g opA d c) (Disturbs t w g arith [d]) where
  start s hA hholds := by
    have hother : opA.opc.isOther = false := by rw [hmov]; rfl
    rw [step_reg_dest hA.1 hholds hdest (by simp [hother]), value_eq_of_constant hc _ s]
    simp only [Oper.result, hmov, Opcode.eval, Oper.srcValues, List.getD_eq_getElem?_getD,
      List.getElem?_map, hsrc, Option.map_some, Option.getD_some]
  keep s o ho hnot h hholds := by
    rw [step_reg_of_not_disturbs ho hnot (by simp), h hholds, value_eq_of_constant hc]
  rewrite between opB opB' n s hskip hstop hrw _ hB hs := by
    obtain rfl : (replaceSources t.toTarget d c opB).1 = opB' :=
      congrArg Prod.fst (Except.ok.inj hrw)
    have heq := replaceSources_eq (t := t) (d := d) hc opB
    refine ⟨heq ▸ hB.withSrc hl _, ?_⟩
    cases hholdsB : opB.holds g with
    | false => rw [heq, step_withSrc_of_not_holds hB hholdsB]
    | true =>
      simp only [constRule, Bool.or_eq_false_iff, Bool.not_eq_false'] at hskip
      simp only [constRule, Bool.not_eq_false', noDanger_eq] at hstop
      obtain ⟨⟨⟨⟨⟨-, -⟩, hsuper⟩, hdefs⟩, -⟩, -⟩ := hskip
      have hconst : ConstHolds w g opA d c s := by
        refine hs fun p hp ↦ not_disturbs_between hl hholdsB ?_ (noDanger_of_cons hstop) ?_ hp
        · exact fun r hr p hp hint ↦ List.mem_singleton.1 hr ▸ dest_ne_of_noDefsBetween hdefs hp hint
        · exact fun r hr hf ↦ List.mem_singleton.1 hr ▸ hf
      obtain ⟨hid, hopc, hd, hpred, hval⟩ := sameButSrc_replaceSources (t := t.toTarget)
        (hconst (hl.superset opA opB hsuper hholdsB)) opB
      exact step_congr hid hopc hd hpred hval

/-- **Constant propagation keeps what a block does**, guards and calls included. -/
theorem rewrites_propagateLoop (hl : Lawful t g) {immedOnly : Bool} {n change : ℕ} {ops' : List Oper}
    (hmeets : Meets (Oper.step w) (Runs t w g arith) ops s)
    (h : propagateLoop t.toTarget immedOnly n ops = .ok (ops', change)) :
    Rewrites (Oper.step w) (Runs t w g arith) ops ops' s := by
  rw [← sweepLoop_constStart []] at h
  refine rewrites_sweepLoop (Q := fun _ _ ↦ True) (fun prevs opA rest r hstart ↦ ?_) hmeets
    loopFits_trivial h
  obtain ⟨c, d, hc, hopc, hsrc, hdest, rfl⟩ := constStart_eq_some hstart
  exact ⟨_, _, constRule_sound hl hc hopc hsrc hdest⟩

end Propagation

end OpenImpact.Lopti
