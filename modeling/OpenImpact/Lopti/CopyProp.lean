import OpenImpact.Lopti.Queries

/-!
# Copy propagation in a block

`L_local_copy_propagation`, which also takes sign and zero extensions for copies where the operation
that uses the copy extends its source again. A block keeps its run, guards and calls included, as long as
no extension is propagated into a store that has the extended register in its address
(`rewrites_localCopyPropagation`).

The theorem rests on the same rules over a block as the other passes (`copyRule_sound`): between the
copy and the use neither register is written. `CopyFits` is the condition on stores, asked of the
pass at each step. An operation has at most one destination here, and the moves of floats, which the
source takes for moves too, are left out.
-/

namespace OpenImpact.Lopti

open Foundation Lcode

section Pass

variable (t : LocalTarget)

/-- `L_has_unsafe_macro_operand`. -/
def hasUnsafeMacroOperand (o : Oper) : Bool :=
  o.dest.any t.unsafeMacro || o.src.any fun
    | .reg r => t.unsafeMacro r
    | _ => false

/-- `L_redundant_extension_fwd`, for an extension to `d`. -/
def redundantExtensionFwd (d : ℕ) (extOp dstOp : Oper) : Bool :=
  match extensionCtype extOp.opc with
  | none => false
  | some extCtype =>
    (dstOp.src[t.storeValue dstOp]? = some (.reg d) &&
      t.storeCtype dstOp = some extCtype.signedVersion) ||
    extensionCtype dstOp.opc = some extCtype ||
    (t.compareCtype dstOp).map Ctype.signedVersion = some extCtype.signedVersion

/-- The loop over the sources. -/
def replaceRegister (d y : ℕ) (o : Oper) : Oper :=
  { o with src := o.src.map fun a ↦ if a = .reg d then .reg y else a }

/-- The inner loop, for a copy of `y` to `d`. -/
def copyRule (prevs : List Oper) (opA : Oper) (d y : ℕ) : Rule Halt Oper where
  skip between opB :=
    .reg d ∉ opB.src ||
    ((extensionCtype opA.opc).isSome && !redundantExtensionFwd t d opA opB) ||
    (t.isMacro y && t.subroutineCall opB) ||
    !t.canChangeSrcOperand opB d ||
    !t.supersetPredicateOps opA opB ||
    !noDefsBetween t.toTarget d between opB ||
    !sameDefReachs t y prevs opA between opB
  stop between := !noDangerMacro t (t.fragileMacro d || t.fragileMacro y) (opA :: between)
  rewrite opB := .ok (replaceRegister d y opB, opB.src.count (.reg d))

/-- The register that a move or an extension copies. -/
def copyOf (opA : Oper) : Option ℕ :=
  if opA.opc = .mov || (t.copyPropInclSzExt && (extensionCtype opA.opc).isSome) then
    match opA.src[0]? with
    | some (Operand.reg y) => if hasUnsafeMacroOperand t opA then none else some y
    | _ => none
  else none

/-- One operation in the outer loop. -/
def copyStart (prevs : List Oper) (opA : Oper) (rest : List Oper) : Run (Option (Rule Halt Oper)) :=
  match copyOf t opA, opA.dest with
  | none, _ => .ok none
  | some y, some d => .ok (some (copyRule t prevs opA d y))
  | some _, none =>
    if rest.isEmpty then .ok none else .error (.punt "L_is_src_operand: NULL operand")

/-- `L_local_copy_propagation`: the block and the number of changes. -/
def localCopyPropagation (ops : List Oper) : Run (List Oper × ℕ) :=
  sweepLoop (copyStart t) [] ops.length ops

end Pass

variable {μ : Type} {t : LocalTarget} {w : World μ} {g : ℕ → Bool} {s : State μ} {d y : ℕ}
  {opA opB : Oper} {ops : List Oper} {arith : ℕ → ℕ × ℕ → List (BitVec 32) → BitVec 32}

/-- An extension is not propagated into a store that uses the extended register in its address. -/
def CopyFits (t : LocalTarget) (opA opB : Oper) : Prop :=
  (extensionCtype opA.opc).isSome = true → t.storeCtype opB ≠ none →
    ∀ i d, opA.dest = some d → opB.src[i]? = some (.reg d) → i = t.storeValue opB

/-! ### What a copy is -/

/-- A move or an extension looks at its first source only. -/
theorem eval_copy {opc : Opcode} (h : opc = .mov ∨ (extensionCtype opc).isSome = true)
    (a b : BitVec 32) : opc.eval a b = opc.eval a 0 := by
  rcases h with rfl | h
  · rfl
  · cases opc <;> first | rfl | cases h

theorem setWidth_signExtend_low {k : ℕ} (h : k ≤ 32) (a : BitVec k) :
    (a.signExtend 32).setWidth k = a := by
  ext i hi
  rw [BitVec.getElem_setWidth, BitVec.getLsbD_signExtend, if_pos hi, BitVec.getLsbD_eq_getElem hi]
  simp only [decide_eq_true (hi.trans_le h), Bool.true_and]

/-- Extending twice is extending once. -/
theorem eval_extension {opc opc' : Opcode} {c : Ctype} (h : extensionCtype opc = some c)
    (h' : extensionCtype opc' = some c) (a b : BitVec 32) :
    opc'.eval (opc.eval a 0) b = opc'.eval a b := by
  cases opc <;> cases h <;> cases opc' <;> cases h' <;> simp only [Opcode.eval]
  · rw [setWidth_signExtend_low (by decide)]
  · rw [setWidth_signExtend_low (by decide)]
  all_goals bv_omega

theorem bits_signedVersion (c : Ctype) : c.signedVersion.bits = c.bits := by
  cases c <;> rfl

/-- An extension keeps the low part. -/
theorem low_extension {opc : Opcode} {c : Ctype} (h : extensionCtype opc = some c) (a : BitVec 32) :
    (opc.eval a 0).setWidth c.bits = a.setWidth c.bits := by
  cases opc <;> cases h <;> simp only [Opcode.eval, Ctype.bits]
  · rw [setWidth_signExtend_low (by decide)]
  · rw [setWidth_signExtend_low (by decide)]
  all_goals bv_omega

theorem low_extension_of_signedVersion {opc : Opcode} {c c' : Ctype} (h : extensionCtype opc = some c)
    (hc : c'.signedVersion = c.signedVersion) (a : BitVec 32) :
    (opc.eval a 0).setWidth c'.bits = a.setWidth c'.bits := by
  have hbits : c'.bits = c.bits := by rw [← bits_signedVersion, hc, bits_signedVersion]
  rw [hbits, low_extension h]

theorem result_of_extension {m : Machine} {regs : Regs} {o : Oper}
    (h : (extensionCtype o.opc).isSome = true) :
    o.result m regs = o.opc.eval ((o.srcValues m regs).getD 0 0) 0 := by
  rw [Oper.result]
  split
  · rename_i n hopc
    rw [hopc] at h
    cases h
  · exact eval_copy (.inr h) _ _

/-! ### The sources after the replacement -/

theorem srcValues_replaceRegister_length {m : Machine} {regs : Regs} :
    ((replaceRegister d y opB).srcValues m regs).length = (opB.srcValues m regs).length := by
  simp [Oper.srcValues, replaceRegister]

/-- The value of a source that was replaced and of one that was not. -/
theorem srcValues_replaceRegister {m : Machine} {regs : Regs} (i : ℕ) :
    ((replaceRegister d y opB).srcValues m regs)[i]? =
      if opB.src[i]? = some (.reg d) then some (regs.reg y) else (opB.srcValues m regs)[i]? := by
  simp only [Oper.srcValues, replaceRegister, List.map_map, List.getElem?_map]
  cases hsrc : opB.src[i]? with
  | none => simp
  | some a =>
    rcases eq_or_ne a (.reg d) with rfl | hne
    · simp
    · simp [hne]

theorem srcValues_of_reg {m : Machine} {regs : Regs} {i : ℕ} (h : opB.src[i]? = some (.reg d)) :
    (opB.srcValues m regs)[i]? = some (regs.reg d) := by
  simp [Oper.srcValues, h]

/-- Propagating a copy that still holds. -/
theorem srcValues_eq_of_copy {m : Machine} {regs : Regs} (h : regs.reg d = regs.reg y) :
    (replaceRegister d y opB).srcValues m regs = opB.srcValues m regs := by
  refine List.ext_getElem? fun i ↦ ?_
  rw [srcValues_replaceRegister]
  split_ifs with hi
  · rw [srcValues_of_reg hi, h]
  · rfl

/-- Propagating an extension that still holds keeps the low part of every source. -/
theorem low_replaceRegister {m : Machine} {regs : Regs} {opc : Opcode} {c c' : Ctype}
    (hext : extensionCtype opc = some c) (hc : c'.signedVersion = c.signedVersion)
    (h : regs.reg d = opc.eval (regs.reg y) 0) (i : ℕ) :
    (((replaceRegister d y opB).srcValues m regs).getD i 0).setWidth c'.bits =
      ((opB.srcValues m regs).getD i 0).setWidth c'.bits := by
  rw [List.getD_eq_getElem?_getD, List.getD_eq_getElem?_getD, srcValues_replaceRegister]
  split_ifs with hi
  · rw [srcValues_of_reg hi, Option.getD_some, Option.getD_some, h,
      low_extension_of_signedVersion hext hc]
  · rfl

/-! ### One replacement -/

/-- **A copy is propagated** where its register holds the copied value. -/
theorem step_replaceRegister (hl : Lawful t g) (hB : OperOk t w arith opB)
    (hfits : CopyFits t opA opB) (hdest : opA.dest = some d)
    (hcopy : opA.opc = .mov ∨ (extensionCtype opA.opc).isSome = true)
    (hred : (extensionCtype opA.opc).isSome = true → redundantExtensionFwd t d opA opB = true)
    (h : s.regs.reg d = opA.opc.eval (s.regs.reg y) 0) :
    (replaceRegister d y opB).step w s = opB.step w s := by
  rcases hcopy with hmov | hext
  · rw [hmov] at h
    exact step_congr rfl rfl rfl rfl (srcValues_eq_of_copy h)
  · have hred := hred hext
    obtain ⟨c, hc⟩ := Option.isSome_iff_exists.1 hext
    simp only [redundantExtensionFwd, hc, Bool.or_eq_true, Bool.and_eq_true, decide_eq_true_eq]
      at hred
    rcases hred with (⟨hval, hstore⟩ | hagain) | hcompare
    · -- a store, of which only the value has been replaced
      obtain ⟨n, hother⟩ := isOther_iff.1 (hl.store_isOther opB _ hstore)
      refine step_of_sameOn rfl rfl rfl rfl hother
        ((hB n hother).store _ hstore _ _ srcValues_replaceRegister_length (fun i hi ↦ ?_) ?_)
      · rw [srcValues_replaceRegister, if_neg]
        exact fun hsrc ↦ hi (hfits hext (by simp [hstore]) i d hdest hsrc)
      · exact low_replaceRegister hc (by cases c <;> rfl) h _
    · -- the same extension again
      have hother : opB.opc.isOther = false := by
        cases hopc : opB.opc <;> rw [hopc] at hagain <;> first | rfl | cases hagain
      refine step_of_result rfl rfl hother hother fun _ ↦ ?_
      have hsome : (extensionCtype opB.opc).isSome = true := by rw [hagain]; rfl
      rw [result_of_extension (show (extensionCtype (replaceRegister d y opB).opc).isSome = true from
        hsome), result_of_extension hsome]
      have hvalue : ((replaceRegister d y opB).srcValues (w.machine s.mem) s.regs)[0]? =
          if opB.src[0]? = some (.reg d) then some (s.regs.reg y)
          else (opB.srcValues (w.machine s.mem) s.regs)[0]? := srcValues_replaceRegister 0
      rw [List.getD_eq_getElem?_getD, List.getD_eq_getElem?_getD, hvalue]
      split_ifs with hi
      · rw [srcValues_of_reg hi, Option.getD_some, Option.getD_some, h]
        exact (eval_extension hc hagain _ _).symm
      · rfl
    · -- a comparison
      obtain ⟨cc, hcc, hsigned⟩ := Option.map_eq_some_iff.1 hcompare
      obtain ⟨n, hother⟩ := isOther_iff.1 (hl.compare_isOther opB _ hcc)
      exact step_of_sameOn rfl rfl rfl rfl hother ((hB n hother).compare _ hcc _ _
        srcValues_replaceRegister_length fun i ↦ low_replaceRegister hc hsigned h i)

/-! ### The pass -/

theorem copyOf_eq_some (h : copyOf t opA = some y) :
    (opA.opc = .mov ∨ (extensionCtype opA.opc).isSome = true) ∧ opA.src[0]? = some (.reg y) := by
  rw [copyOf] at h
  split_ifs at h with hopc hunsafe
  · split at h <;> cases h
  · rw [Bool.or_eq_true, Bool.and_eq_true, decide_eq_true_eq] at hopc
    refine ⟨hopc.imp_right And.right, ?_⟩
    split at h
    · rename_i y' hsrc
      cases h
      exact hsrc
    · cases h

theorem isOther_of_copy (h : opA.opc = .mov ∨ (extensionCtype opA.opc).isSome = true) :
    opA.opc.isOther = false := by
  rcases h with hmov | hext
  · rw [hmov]; rfl
  · cases hopc : opA.opc <;> rw [hopc] at hext <;> first | rfl | cases hext

/-- Copying a register to itself. -/
theorem eval_copy_idem {opc : Opcode} (h : opc = .mov ∨ (extensionCtype opc).isSome = true)
    (a : BitVec 32) : opc.eval (opc.eval a 0) 0 = opc.eval a 0 := by
  rcases h with rfl | hext
  · rfl
  · obtain ⟨c, hc⟩ := Option.isSome_iff_exists.1 hext
    exact eval_extension hc hc a 0

/-- The destination of a copy that has run holds the copied value. -/
def CopyHolds (g : ℕ → Bool) (opA : Oper) (d y : ℕ) (s : State μ) : Prop :=
  opA.holds g = true → s.regs.reg d = opA.opc.eval (s.regs.reg y) 0

theorem copyHolds_step (hg : Guarded g s opA) (hcopy : copyOf t opA = some y)
    (hdest : opA.dest = some d) : CopyHolds g opA d y (opA.step w s) := by
  intro hholds
  obtain ⟨hopc, hsrc⟩ := copyOf_eq_some hcopy
  have hother := isOther_of_copy hopc
  have hd : (opA.step w s).regs.reg d = opA.opc.eval (s.regs.reg y) 0 := by
    rw [step_reg_dest hg hholds hdest (by simp [hother])]
    have hvalue : opA.result (w.machine s.mem) s.regs =
        opA.opc.eval ((opA.srcValues (w.machine s.mem) s.regs).getD 0 0) 0 := by
      rw [Oper.result]
      split
      · rename_i n hn
        rw [hn] at hother
        cases hother
      · exact eval_copy hopc _ _
    rw [hvalue, List.getD_eq_getElem?_getD, srcValues_of_reg hsrc, Option.getD_some]
  rcases eq_or_ne d y with rfl | hne
  · rw [hd, eval_copy_idem hopc]
  · have hy : (opA.step w s).regs.reg y = s.regs.reg y := by
      rw [step_reg_of_not_clobbers (by simp [hother]), exec_reg_of_dest_ne (by simp [hdest, hne])]
    rw [hd, hy]

/-- The rule after a copy is sound. -/
theorem copyRule_sound (hl : Lawful t g) (prevs : List Oper) (hcopy : copyOf t opA = some y)
    (hdest : opA.dest = some d) :
    (copyRule t prevs opA d y).Sound (Oper.step w) (Runs t w g arith) (CopyFits t opA) opA
      (CopyHolds g opA d y) (Disturbs t w g arith [d, y]) where
  start s hA := copyHolds_step hA.1 hcopy hdest
  keep s o ho hnot h hholds := by
    rw [step_reg_of_not_disturbs ho hnot (by simp), step_reg_of_not_disturbs ho hnot (by simp),
      h hholds]
  rewrite between opB opB' n s hskip hstop hrw hfits hB hs := by
    cases hrw
    refine ⟨hB.withSrc hl _, ?_⟩
    cases hholdsB : opB.holds g with
    | false => exact step_withSrc_of_not_holds hB hholdsB _
    | true =>
      simp only [copyRule, Bool.or_eq_false_iff, Bool.not_eq_false', Bool.and_eq_false_iff] at hskip
      simp only [copyRule, Bool.not_eq_false'] at hstop
      obtain ⟨⟨⟨⟨⟨⟨-, hred⟩, -⟩, -⟩, hsuper⟩, hdefs⟩, hsame⟩ := hskip
      have hholds : CopyHolds g opA d y s := by
        refine hs fun p hp ↦ not_disturbs_between hl hholdsB ?_ (noDanger_of_cons hstop) ?_ hp
        · simp only [List.forall_mem_cons]
          exact ⟨fun p hp hint ↦ dest_ne_of_noDefsBetween hdefs hp hint,
            fun p hp hint ↦ dest_ne_of_sameDefReachs hsame (List.mem_cons_of_mem _ hp) hint, by simp⟩
        · simp only [List.forall_mem_cons]
          exact ⟨fun hf ↦ by simp [hf], fun hf ↦ by simp [hf], by simp⟩
      refine step_replaceRegister hl hB.2 hfits hdest (copyOf_eq_some hcopy).1 (fun hext ↦ ?_)
        (hholds (hl.superset opA opB hsuper hholdsB))
      rcases hred with hred | hred
      · rw [hext] at hred
        cases hred
      · exact hred

/-- **Copy propagation keeps what a block does.** In every run in which the guards are as the predicate
graph has them, the block leaves the same registers and the same memory, calls and side exits included,
if no extension is propagated into a store that has the extended register in its address. -/
theorem rewrites_localCopyPropagation (hl : Lawful t g) {ops' : List Oper} {c : ℕ}
    (hfits : LoopFits (copyStart t) (CopyFits t) [] ops.length ops)
    (hmeets : Meets (Oper.step w) (Runs t w g arith) ops s)
    (h : localCopyPropagation t ops = .ok (ops', c)) :
    Rewrites (Oper.step w) (Runs t w g arith) ops ops' s := by
  refine rewrites_sweepLoop (fun prevs opA rest r hstart ↦ ?_) hmeets hfits h
  rw [copyStart] at hstart
  split at hstart
  · cases hstart
  · rename_i y d hcopy hdest
    cases hstart
    exact ⟨_, _, copyRule_sound hl prevs hcopy hdest⟩
  · split_ifs at hstart
    cases hstart

/-- `mov r2 = r1; sxt_c r3 = r2; st_c [r10, 0] = r3`, the store under a guard. -/
def charBlock : List Oper :=
  [⟨1, .mov, some 2, [.reg 1], none⟩, ⟨2, .sxtC, some 3, [.reg 2], none⟩,
    ⟨3, .other 300, none, [.reg 10, .int 0, .reg 3], some 7⟩]

/-- The block with `r1` extended and stored. -/
def charPropagated : List Oper :=
  [⟨1, .mov, some 2, [.reg 1], none⟩, ⟨2, .sxtC, some 3, [.reg 1], none⟩,
    ⟨3, .other 300, none, [.reg 10, .int 0, .reg 1], some 7⟩]

theorem rewrites_localCopyPropagation_charBlock :
    Rewrites (Oper.step charWorld) (Runs charTarget charWorld (fun _ ↦ true) fun _ _ _ ↦ 0)
      charBlock charPropagated ⟨⟨BitVec.ofNat 32, fun _ ↦ true⟩, []⟩ := by
  have hmov {prevs : List Oper} {o : Oper} {d y : ℕ} (rest : List Oper) (h : o.opc = .mov) :
      (copyRule charTarget prevs o d y).Fits (CopyFits charTarget o) [] rest :=
    Rule.fits_of_forall _ (fun b _ hext ↦ by rw [h] at hext; cases hext) _
  refine rewrites_localCopyPropagation (t := charTarget) (c := 2) lawful_charTarget
    (loopFits_of_some rfl (hmov _ rfl) rfl
      (loopFits_of_some rfl ?_ rfl (loopFits_of_none rfl trivial)))
    ⟨⟨rfl, operOk_of_not_isOther rfl⟩, ⟨rfl, operOk_of_not_isOther rfl⟩,
      ⟨rfl, fun n _ ↦ otherOk_charStore n _ _⟩, trivial⟩ (by decide +kernel)
  -- `r3` is stored, not used in the address
  refine ⟨fun _ _ i d hd hi ↦ ?_, fun _ _ _ ↦ trivial⟩
  cases hd
  obtain _ | _ | _ | i := i
  · cases hi
  · cases hi
  · rfl
  · cases hi

end OpenImpact.Lopti
