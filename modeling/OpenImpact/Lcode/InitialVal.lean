import OpenImpact.Foundation.AffineForm
import OpenImpact.Lcode.Oper
import Mathlib.Data.List.GetD

/-!
# Initial values of induction variables

`L_find_initial_val_for_cb` follows the variables of a block as affine forms of a register. An entry stays
true as long as nothing writes the register it is expressed in, which the code does not look at, and a
multiplication by `0` passes for an addition. Apart from these and from shifts out of range every entry
that is valid at the end is right (`rightInitialVals_findInitialValForCb`).

The invariant is `RightInitialVals`: in the state before an operation, each valid entry has for its
register the value of its affine form. `StepFits` is what one operation needs to keep it, and
`StepsFit` asks it of every operation of the block. It leaves out only operations that reach a
defect, but a block can be right at the end in spite of one, so the converse is not claimed.
-/

namespace OpenImpact.Lcode

open Foundation

/-! ### The source's functions -/

/-- `L_Ind_Info`, with `coeff`, `base` and `offset` as one form, and the `id` of `initop`. -/
structure IndInfo where
  validIndVar : ℤ
  var : Operand
  increment : Option Operand
  validInitVal : ℤ
  form : AffineForm (BitVec 32) Operand
  initop : Option ℕ
  deriving DecidableEq

/-- `L_new_ind_info`. -/
def newIndInfo (var : Operand) (validIndVar : ℤ) : IndInfo where
  validIndVar := validIndVar
  var := var
  increment := none
  validInitVal := 0
  form := ⟨0, none, 0⟩
  initop := none

/-- `L_find_ind_info`. -/
def findIndInfo : List IndInfo → Option Operand → ℤ → Option IndInfo
  | _, none, _ => none
  | [], some _, _ => none
  | ptr :: infos, some var, initValFlag =>
    if ptr.var = var then
      if initValFlag = ptr.validInitVal then some ptr
      else if initValFlag = 2 then some ptr
      else none
    else findIndInfo infos (some var) initValFlag

/-- A change of the entry that `L_find_ind_info` returns for the flag `2`. -/
def modifyIndInfo (var : Operand) (f : IndInfo → IndInfo) : List IndInfo → List IndInfo
  | [] => []
  | ptr :: infos => if ptr.var = var then f ptr :: infos else ptr :: modifyIndInfo var f infos

/-- `L_invalidate_initial_val`. -/
def invalidateInitialVal (var : Operand) (infos : List IndInfo) : List IndInfo :=
  modifyIndInfo var (fun info ↦ { info with validInitVal := 0 }) infos

/-- `C_pow2`, as an `int`. -/
def cPow2 (n : BitVec 32) : BitVec 32 :=
  if 0 ≤ n.toInt ∧ n.toInt < 32 then 1 <<< n.toNat else -1

/-- `coeff1`, `base1` and `offset1` of a source, from its entry if that is valid. -/
def sourceForm (infos : List IndInfo) : Option Operand → AffineForm (BitVec 32) Operand
  | some (.int i) => .const (i.setWidth 32)
  | src =>
    match findIndInfo infos src 1 with
    | none => .ofBase src
    | some info => info.form

/-- `coeff2`, `base2` and `offset2`, if the opcode and the second source are ones that are followed. -/
def secondForm (infos : List IndInfo) (o : Oper) : Option (AffineForm (BitVec 32) Operand) :=
  match o.opc, o.src[1]? with
  | .mov, _ => some ⟨0, none, 0⟩
  | .add, src₂ | .addU, src₂ => some (sourceForm infos src₂)
  | .sub, src₂ | .subU, src₂ => some (sourceForm infos src₂).neg
  | .mul, some (.int i) | .mulU, some (.int i) => some ⟨i.setWidth 32, none, 0⟩
  | .lsl, some (.int i) => some ⟨cPow2 (i.setWidth 32), none, 0⟩
  | _, _ => none

/-- "Check for multiply by const". -/
def isMultiplier (f₂ : AffineForm (BitVec 32) Operand) : Bool :=
  f₂.base = none && f₂.offset = 0 && f₂.coeff ≠ 0

/-- `coeff`, `base` and `offset`. -/
def destForm (f₁ f₂ : AffineForm (BitVec 32) Operand) : Option (AffineForm (BitVec 32) Operand) :=
  if isMultiplier f₂ then some (f₁.scale f₂.coeff) else f₁.add? f₂

/-- The entry for the destination is written, or added at the end. -/
def setInitialVal (dest : Operand) (form : AffineForm (BitVec 32) Operand) (op : ℕ)
    (infos : List IndInfo) : List IndInfo :=
  let write (info : IndInfo) : IndInfo :=
    { info with validInitVal := 1, form := form, initop := some op }
  match findIndInfo infos (some dest) 2 with
  | some _ => modifyIndInfo dest write infos
  | none => infos ++ [write (newIndInfo dest 0)]

/-- One operation in the loop of `L_find_initial_val_for_cb`. -/
def findInitialVal (infos : List IndInfo) (o : Oper) : List IndInfo :=
  match o.dest, o.pred with
  | none, _ => infos
  -- partial writes are not safe initializers
  | some d, some _ => invalidateInitialVal (.reg d) infos
  | some d, none =>
    match secondForm infos o with
    | none => invalidateInitialVal (.reg d) infos
    | some f₂ =>
      match destForm (sourceForm infos o.src[0]?) f₂ with
      | none => invalidateInitialVal (.reg d) infos
      | some form =>
        -- nothing is initialized by a function of itself
        if form.base = some (.reg d) then invalidateInitialVal (.reg d) infos
        else setInitialVal (.reg d) form o.id infos

/-- `L_find_initial_val_for_cb`. -/
def findInitialValForCb (ops : List Oper) (infos : List IndInfo) : List IndInfo :=
  ops.foldl findInitialVal infos

/-! ### The condition -/

/-- The operations whose second source is a factor. -/
def isMultiply : Opcode → Bool
  | .mul | .mulU | .lsl => true
  | _ => false

/-- An entry is written: the operation is unguarded, both sources are followed and the form for the
destination is not expressed in the destination. -/
structure Followed (infos : List IndInfo) (o : Oper) (f₂ form : AffineForm (BitVec 32) Operand) :
    Prop where
  pred : o.pred = none
  second : secondForm infos o = some f₂
  dest : destForm (sourceForm infos o.src[0]?) f₂ = some form
  base : ∀ d, o.dest = some d → form.base ≠ some (.reg d)

/-- What the loop leaves out at one operation: where an entry is written, the check for a multiplication is
right and a shift is one of `0` to `31`; no other valid entry is for the destination or expressed in it. -/
structure StepFits (infos : List IndInfo) (o : Oper) : Prop where
  multiplier : ∀ f₂ form, Followed infos o f₂ form → isMultiplier f₂ = isMultiply o.opc
  shift : ∀ f₂ form, Followed infos o f₂ form → o.opc = .lsl →
    ∀ i, o.src[1]? = some (.int i) → (i.setWidth 32).toNat < 32
  overwritten : ∀ d, o.dest = some d → ∀ info ∈ invalidateInitialVal (.reg d) infos,
    info.validInitVal = 1 →
      info.var ≠ .reg d ∧ (info.form.base = some (.reg d) → info.form.coeff = 0)

/-- The condition at every operation of the block. -/
def StepsFit : List IndInfo → List Oper → Prop
  | _, [] => True
  | infos, o :: ops => StepFits infos o ∧ StepsFit (findInitialVal infos o) ops

/-! ### Right entries -/

variable {m : Machine} {s : Regs} {infos : List IndInfo} {info : IndInfo} {o : Oper} {d : ℕ}

/-- The entry holds. -/
def IndInfo.Holds (m : Machine) (s : Regs) (info : IndInfo) : Prop :=
  info.validInitVal = 1 → info.var.value m s = info.form.value (Operand.value m s)

/-- All entries hold. -/
def RightInitialVals (m : Machine) (s : Regs) (infos : List IndInfo) : Prop :=
  ∀ info ∈ infos, info.Holds m s

theorem findIndInfo_spec {var : Option Operand} {flag : ℤ} (h : findIndInfo infos var flag = some info) :
    info ∈ infos ∧ var = some info.var ∧ (flag = info.validInitVal ∨ flag = 2) := by
  induction infos with
  | nil => cases var <;> cases h
  | cons ptr infos ih =>
    cases var with
    | none => cases h
    | some var =>
      rw [findIndInfo] at h
      split_ifs at h with hvar hflag htwo
      · cases h
        exact ⟨List.mem_cons_self, congrArg some hvar.symm, .inl hflag⟩
      · cases h
        exact ⟨List.mem_cons_self, congrArg some hvar.symm, .inr htwo⟩
      · exact (ih h).imp_left (List.mem_cons_of_mem _)

/-- The values of absent sources count as `0`. -/
theorem srcValues_eq_baseValue (i : ℕ) :
    (o.srcValues m s).getD i 0 = AffineForm.baseValue (Operand.value m s) o.src[i]? := by
  rw [Oper.srcValues, List.getD_eq_getElem?_getD, List.getElem?_map]
  cases o.src[i]? <;> rfl

theorem value_sourceForm (h : RightInitialVals m s infos) (src : Option Operand) :
    (sourceForm infos src).value (Operand.value m s) =
      AffineForm.baseValue (Operand.value m s) src := by
  have hfound : ∀ f : AffineForm (BitVec 32) Operand, f = (match findIndInfo infos src 1 with
      | none => .ofBase src
      | some info => info.form) → f.value (Operand.value m s) =
        AffineForm.baseValue (Operand.value m s) src := by
    rintro f rfl
    cases hinfo : findIndInfo infos src 1 with
    | none => exact AffineForm.value_ofBase src
    | some info =>
      obtain ⟨hmem, rfl, hflag⟩ := findIndInfo_spec hinfo
      have hvalid : info.validInitVal = 1 := hflag.elim Eq.symm fun h ↦ absurd h (by decide)
      exact (h info hmem hvalid).symm
  rcases src with _ | (i | r | l)
  · exact hfound _ rfl
  · exact AffineForm.value_const _
  · exact hfound _ rfl
  · exact hfound _ rfl

theorem cPow2_mul {n : BitVec 32} (hn : n.toNat < 32) (a : BitVec 32) :
    cPow2 n * a = a <<< n.toNat := by
  have hint : n.toInt = n.toNat := BitVec.toInt_eq_toNat_of_lt (by omega)
  rw [cPow2, if_pos ⟨by omega, by omega⟩, BitVec.shiftLeft_eq_mul_twoPow, mul_comm]
  rfl

/-- The factor of a multiplication or a shift. -/
theorem secondForm_of_isMultiply (hopc : isMultiply o.opc = true)
    {f₂ : AffineForm (BitVec 32) Operand} (hf₂ : secondForm infos o = some f₂) :
    ∃ i, o.src[1]? = some (.int i) ∧
      f₂ = ⟨if o.opc = .lsl then cPow2 (i.setWidth 32) else i.setWidth 32, none, 0⟩ := by
  rw [secondForm] at hf₂
  split at hf₂
  all_goals simp_all [isMultiply]

/-- What the operation computes, in terms of the form of its second source. -/
theorem result_of_secondForm (h : RightInitialVals m s infos) (hfit : StepFits infos o)
    {f₂ form : AffineForm (BitVec 32) Operand} (hfol : Followed infos o f₂ form) :
    o.result m s = if isMultiplier f₂ then f₂.coeff * (o.srcValues m s).getD 0 0
      else (o.srcValues m s).getD 0 0 + f₂.value (Operand.value m s) := by
  have hsum := value_sourceForm h o.src[1]?
  rw [← srcValues_eq_baseValue] at hsum
  have hf₂ := hfol.second
  rw [hfit.multiplier f₂ form hfol]
  cases hopc : o.opc with
  | mov =>
    rw [secondForm, hopc] at hf₂
    cases hf₂
    simp [Oper.result, hopc, isMultiply, Opcode.eval, AffineForm.value]
  | add | addU =>
    rw [secondForm, hopc] at hf₂
    cases hf₂
    simp only [Oper.result, hopc, isMultiply, Opcode.eval, hsum]
    rfl
  | sub | subU =>
    rw [secondForm, hopc] at hf₂
    cases hf₂
    simp only [Oper.result, hopc, isMultiply, Opcode.eval, AffineForm.value_neg, hsum]
    exact sub_eq_add_neg _ _
  | mul | mulU =>
    obtain ⟨i, hsrc, rfl⟩ := secondForm_of_isMultiply (by rw [hopc]; rfl) hf₂
    simp only [Oper.result, hopc, isMultiply, Opcode.eval, srcValues_eq_baseValue, hsrc]
    exact mul_comm _ _
  | lsl =>
    obtain ⟨i, hsrc, rfl⟩ := secondForm_of_isMultiply (by rw [hopc]; rfl) hf₂
    simp only [Oper.result, hopc, isMultiply, Opcode.eval, srcValues_eq_baseValue, hsrc]
    exact (cPow2_mul (hfit.shift _ form hfol hopc i hsrc) _).symm
  | _ =>
    rw [secondForm, hopc] at hf₂
    cases hf₂

/-- The form for the destination is right before the destination is written. -/
theorem value_destForm (h : RightInitialVals m s infos) (hfit : StepFits infos o)
    {f₂ form : AffineForm (BitVec 32) Operand} (hfol : Followed infos o f₂ form) :
    form.value (Operand.value m s) = o.result m s := by
  have hfirst := value_sourceForm h o.src[0]?
  rw [← srcValues_eq_baseValue] at hfirst
  have hform := hfol.dest
  rw [result_of_secondForm h hfit hfol, ← hfirst]
  rw [destForm] at hform
  split_ifs at hform with hmul
  · obtain rfl := Option.some.inj hform
    rw [if_pos hmul, AffineForm.value_scale]
  · rw [if_neg hmul, AffineForm.value_add hform]

/-! ### Writes -/

/-- Operands other than the destination keep their values. -/
theorem value_exec_of_ne {a : Operand} (hdest : o.dest = some d) (ha : a ≠ .reg d) :
    a.value m (o.exec m s) = a.value m s := by
  cases a with
  | int i => rfl
  | label l => rfl
  | reg r =>
    refine exec_reg_of_dest_ne fun hr ↦ ha ?_
    rw [hdest] at hr
    rw [Option.some.inj hr]

/-- An entry that is neither for the destination nor expressed in it still holds after the write. -/
theorem IndInfo.Holds.exec (h : info.Holds m s) (hdest : o.dest = some d)
    (hother : info.validInitVal = 1 →
      info.var ≠ .reg d ∧ (info.form.base = some (.reg d) → info.form.coeff = 0)) :
    info.Holds m (o.exec m s) := by
  intro hvalid
  obtain ⟨hvar, hbase⟩ := hother hvalid
  rw [value_exec_of_ne hdest hvar, h hvalid]
  refine AffineForm.value_congr fun b hb ↦ ?_
  rcases eq_or_ne b (.reg d) with rfl | hne
  · exact .inl (hbase hb)
  · exact .inr (value_exec_of_ne hdest hne).symm

/-- A changed entry apart, two changes of the first entry for a variable leave the same entries. -/
theorem mem_modifyIndInfo_or {var : Operand} {f g : IndInfo → IndInfo}
    (h : info ∈ modifyIndInfo var f infos) :
    info ∈ modifyIndInfo var g infos ∨ ∃ info' ∈ infos, info'.var = var ∧ info = f info' := by
  induction infos with
  | nil => cases h
  | cons ptr infos ih =>
    rw [modifyIndInfo] at h ⊢
    split_ifs at h ⊢ with hvar
    · obtain rfl | h := List.mem_cons.1 h
      · exact .inr ⟨ptr, List.mem_cons_self, hvar, rfl⟩
      · exact .inl (List.mem_cons_of_mem _ h)
    · obtain rfl | h := List.mem_cons.1 h
      · exact .inl List.mem_cons_self
      · exact (ih h).imp (List.mem_cons_of_mem _) fun ⟨info', hmem, hinfo⟩ ↦
          ⟨info', List.mem_cons_of_mem _ hmem, hinfo⟩

theorem modifyIndInfo_id (var : Operand) : modifyIndInfo var id infos = infos := by
  induction infos with
  | nil => rfl
  | cons ptr infos ih => rw [modifyIndInfo, ih, id_eq, ite_self]

theorem rightInitialVals_invalidate {var : Operand} (h : RightInitialVals m s infos) :
    RightInitialVals m s (invalidateInitialVal var infos) := by
  intro info hinfo
  obtain hmem | ⟨info', -, -, rfl⟩ := mem_modifyIndInfo_or (g := id) hinfo
  · rw [modifyIndInfo_id] at hmem
    exact h info hmem
  · exact fun hvalid ↦ absurd hvalid zero_ne_one

/-- No entry for the variable. -/
theorem modifyIndInfo_of_findIndInfo {var : Operand} {f : IndInfo → IndInfo}
    (h : findIndInfo infos (some var) 2 = none) : modifyIndInfo var f infos = infos := by
  induction infos with
  | nil => rfl
  | cons ptr infos ih =>
    rw [findIndInfo] at h
    rw [modifyIndInfo]
    rcases eq_or_ne ptr.var var with hvar | hvar
    · rw [if_pos hvar] at h
      split_ifs at h with _ htwo
      exact absurd rfl htwo
    · rw [if_neg hvar] at h ⊢
      rw [ih h]

/-- After the write, the entries that are left and the new one. -/
theorem mem_setInitialVal {dest : Operand} {form : AffineForm (BitVec 32) Operand} {op : ℕ}
    (h : info ∈ setInitialVal dest form op infos) :
    info ∈ invalidateInitialVal dest infos ∨ info.var = dest ∧ info.form = form := by
  rw [setInitialVal] at h
  dsimp only at h
  split at h
  · obtain hmem | ⟨info', -, hvar, rfl⟩ := mem_modifyIndInfo_or h
    · exact .inl hmem
    · exact .inr ⟨hvar, rfl⟩
  · rename_i hnone
    obtain hmem | hmem := List.mem_append.1 h
    · rw [invalidateInitialVal, modifyIndInfo_of_findIndInfo hnone]
      exact .inl hmem
    · obtain rfl := List.mem_singleton.1 hmem
      exact .inr ⟨rfl, rfl⟩

/-- **One operation.** -/
theorem rightInitialVals_findInitialVal (h : RightInitialVals m s infos) (hfit : StepFits infos o) :
    RightInitialVals m (o.exec m s) (findInitialVal infos o) := by
  cases hdest : o.dest with
  | none =>
    have hkeep (a : Operand) : a.value m (o.exec m s) = a.value m s := by
      cases a with
      | int i => rfl
      | label l => rfl
      | reg r => exact exec_reg_of_dest_ne (by rw [hdest]; exact fun h ↦ nomatch h)
    simp only [findInitialVal, hdest]
    intro info hinfo hvalid
    rw [hkeep, h info hinfo hvalid]
    exact AffineForm.value_congr fun b _ ↦ .inr (hkeep b).symm
  | some d =>
    have hinvalid : RightInitialVals m (o.exec m s) (invalidateInitialVal (.reg d) infos) :=
      fun info hinfo ↦ (rightInitialVals_invalidate h info hinfo).exec hdest
        (hfit.overwritten d hdest info hinfo)
    simp only [findInitialVal, hdest]
    cases hpred : o.pred with
    | some p => exact hinvalid
    | none =>
      dsimp only
      cases hf₂ : secondForm infos o with
      | none => exact hinvalid
      | some f₂ =>
        dsimp only
        cases hform : destForm (sourceForm infos o.src[0]?) f₂ with
        | none => exact hinvalid
        | some form =>
          dsimp only
          split_ifs with hself
          · exact hinvalid
          · have hfol : Followed infos o f₂ form := by
              refine ⟨hpred, hf₂, hform, fun d' hd' ↦ ?_⟩
              rw [hdest] at hd'
              rwa [← Option.some.inj hd']
            intro info hinfo
            obtain hmem | ⟨hvar, hinfoForm⟩ := mem_setInitialVal hinfo
            · exact hinvalid info hmem
            · intro _
              rw [hvar, value_reg, exec_reg_dest hdest (guard_of_pred hpred),
                ← value_destForm h hfit hfol, hinfoForm]
              refine AffineForm.value_congr fun b hb ↦ .inr (value_exec_of_ne hdest ?_).symm
              rintro rfl
              exact hself hb

/-- **The loop.** Entries that hold before the block hold after it, from every state, if what the loop
leaves out comes up at no operation. -/
theorem rightInitialVals_findInitialValForCb {ops : List Oper} (h : RightInitialVals m s infos)
    (hfit : StepsFit infos ops) :
    RightInitialVals m (run m ops s) (findInitialValForCb ops infos) := by
  induction ops generalizing s infos with
  | nil => exact h
  | cons o ops ih =>
    obtain ⟨hstep, hrest⟩ := hfit
    exact ih (rightInitialVals_findInitialVal h hstep) hrest

/-- `add r2 = r1, 4; lsl r3 = r2, 2; lsl r2 = r1, 40 <p1>`. The last shift is guarded and is not followed. -/
def shiftedSum : List Oper :=
  [⟨1, .add, some 2, [.reg 1, .int 4], none⟩, ⟨2, .lsl, some 3, [.reg 2, .int 2], none⟩,
    ⟨3, .lsl, some 2, [.reg 1, .int 40], some 1⟩]

theorem rightInitialVals_shiftedSum :
    (findInitialValForCb shiftedSum [newIndInfo (.reg 3) 1]).map
        (fun info ↦ (info.var, info.validInitVal, info.form)) =
      [(.reg 3, 1, ⟨4, some (.reg 1), 16⟩), (.reg 2, 0, ⟨1, some (.reg 1), 4⟩)] ∧
      ∀ m s, RightInitialVals m (run m shiftedSum s)
        (findInitialValForCb shiftedSum [newIndInfo (.reg 3) 1]) := by
  refine ⟨by decide, fun m s ↦ rightInitialVals_findInitialValForCb ?_ ⟨⟨?_, ?_, ?_⟩, ⟨?_, ?_, ?_⟩,
    ⟨?_, ?_, ?_⟩, trivial⟩⟩
  · intro info hinfo
    obtain rfl := List.mem_singleton.1 hinfo
    exact fun hvalid ↦ absurd hvalid zero_ne_one
  · rintro f₂ form hfol
    obtain rfl := Option.some.inj hfol.second
    decide
  · exact fun _ _ _ hopc ↦ nomatch hopc
  · rintro d hd
    obtain rfl := Option.some.inj hd
    decide
  · rintro f₂ form hfol
    obtain rfl := Option.some.inj hfol.second
    decide
  · rintro - - - - i hi
    cases hi
    decide
  · rintro d hd
    obtain rfl := Option.some.inj hd
    decide
  · exact fun _ _ hfol ↦ nomatch hfol.pred
  · exact fun _ _ hfol ↦ nomatch hfol.pred
  · rintro d hd
    obtain rfl := Option.some.inj hd
    decide

/-- `mul r2 = r1, 0`. -/
def zeroProduct : List Oper :=
  [⟨1, .mul, some 2, [.reg 1, .int 0], none⟩]

/-- `mov r2 = r1; add r1 = r1, 1`. -/
def copyThenStep : List Oper :=
  [⟨1, .mov, some 2, [.reg 1], none⟩, ⟨2, .add, some 1, [.reg 1, .int 1], none⟩]

/-- Both blocks leave the valid entry `r2 = 1 * r1 + 0`, and from registers that all hold `1` it is wrong
after both. -/
theorem not_rightInitialVals_zeroProduct :
    RightInitialVals plainMachine ⟨fun _ ↦ 1, fun _ ↦ true⟩ [] ∧
      ¬ RightInitialVals plainMachine (run plainMachine zeroProduct ⟨fun _ ↦ 1, fun _ ↦ true⟩)
        (findInitialValForCb zeroProduct []) ∧
      ¬ RightInitialVals plainMachine (run plainMachine copyThenStep ⟨fun _ ↦ 1, fun _ ↦ true⟩)
        (findInitialValForCb copyThenStep []) := by
  have hwrong {ops : List Oper} {s : Regs}
      (hentry : findInitialValForCb ops [] =
        [⟨0, .reg 2, none, 1, ⟨1, some (.reg 1), 0⟩, some 1⟩])
      (hvalue : s.reg 2 ≠ s.reg 1) :
      ¬ RightInitialVals plainMachine s (findInitialValForCb ops []) := by
    intro h
    have hinfo := h _ (hentry ▸ List.mem_singleton_self _) rfl
    simp only [AffineForm.value, AffineForm.baseValue, value_reg, one_mul, add_zero] at hinfo
    exact hvalue hinfo
  refine ⟨fun info hinfo ↦ (by cases hinfo), hwrong (by decide) ?_, hwrong (by decide) ?_⟩
  · decide
  · decide

end OpenImpact.Lcode
