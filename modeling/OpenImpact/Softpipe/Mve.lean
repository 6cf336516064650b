import OpenImpact.Softpipe.LiveRange
import Mathlib.Data.Int.ModEq
import Mathlib.Data.List.Nodup
import Mathlib.Tactic.Ring

/-!
# Modulo variable expansion

`Lpipe_associate_mve_regs` and the renaming of `Lpipe_mve_transform` in `l_mve.c`. The kernel is
unrolled until a variant's name is written again only after its last use, and every use reads the
name that the definition it depends on wrote last (`mve_reads`).
-/

namespace OpenImpact.Softpipe

/-! ### The source's functions -/

/-- The number of names a live range needs: the ceiling of lifetime/II, and one more where the last
use is in the cycle of the definition, modulo II, and in a later slot. -/
def namesNeeded (ii : ℤ) (lr : LRInfo) : ℤ :=
  if lr.lifetime.tmod ii ≠ 0 ∨ lr.lifetime = 0 ∨ lr.useAfterDefSlot = true then
    lr.lifetime.tdiv ii + 1
  else lr.lifetime.tdiv ii

/-- The first pass of `Lpipe_associate_mve_regs`: the names of each live range and the number of
copies of the kernel, which is at least `unroll`. -/
def countNames (ii : ℤ) : List LRInfo → ℤ → Run (List LRInfo × ℤ)
  | [], unroll => .ok ([], unroll)
  | lr :: lrs, unroll =>
    if lr.isRegister then do
      let (rest, unroll) ←
        countNames ii lrs (if namesNeeded ii lr > unroll then namesNeeded ii lr else unroll)
      .ok ({ lr with numNames := namesNeeded ii lr } :: rest, unroll)
    else if namesNeeded ii lr > 1 then
      .error (.punt ("Lpipe_mve_analyze: " ++ "cannot rename macro registers\n"))
    else do
      let (rest, unroll) ← countNames ii lrs unroll
      .ok (lr :: rest, unroll)

/-- `while ((unroll % num_names) != 0) num_names++`. -/
def padNames (unroll : ℤ) : ℕ → ℤ → Run ℤ
  | 0, _ => .error .outOfFuel
  | fuel + 1, n =>
    if n = 0 then .error .fault
    else if unroll.tmod n ≠ 0 then padNames unroll fuel (n + 1)
    else .ok n

/-- `n` new registers, numbered from `++fn->max_reg_id` on. -/
def newNames (ctype : Ctype) (maxRegId : ℤ) (n : ℕ) : List Operand :=
  (List.range n).map fun j : ℕ ↦ ⟨maxRegId + 1 + (j : ℤ), ctype⟩

/-- The second pass of `Lpipe_associate_mve_regs`; also returns the new `max_reg_id`. -/
def assignNames (unroll : ℤ) : List LRInfo → ℤ → Run (List LRInfo × ℤ)
  | [], maxRegId => .ok ([], maxRegId)
  | lr :: lrs, maxRegId =>
    if lr.isRegister then do
      let n ← padNames unroll (unroll.toNat + 1) lr.numNames
      let (rest, maxRegId') ← assignNames unroll lrs (maxRegId + (n - 1))
      .ok ({ lr with
        numNames := n
        names := lr.operand :: newNames lr.operand.ctype maxRegId (n - 1).toNat } :: rest, maxRegId')
    else do
      let (rest, maxRegId) ← assignNames unroll lrs maxRegId
      .ok (lr :: rest, maxRegId)

/-- `Lpipe_associate_mve_regs`: the number of copies, the live ranges with their names, and
`max_reg_id`. -/
def associateMveRegs (ii : ℤ) (lrs : List LRInfo) (maxRegId : ℤ) :
    Run (ℤ × List LRInfo × ℤ) := do
  let (lrs, unroll) ← countNames ii lrs 0
  let (lrs, maxRegId) ← assignNames unroll lrs maxRegId
  .ok (unroll, lrs, maxRegId)

/-- `def_copy` for an operand in copy `copy` that is no reference definition. -/
def defCopy (ii unroll copy : ℤ) (info : MVEInfo) : ℤ :=
  if info.lifetime ≥ 0 then
    (copy + unroll -
      (info.lifetime.tdiv ii + if info.stageLifetimeIncr then 1 else 0)).tmod unroll
  else
    (copy + ((-info.lifetime).tdiv ii + if info.stageLifetimeIncr then 1 else 0)).tmod unroll

/-- The name of the version that copy `defCopy` defines. -/
def nameOf (ii stageCount : ℤ) (lr : LRInfo) (defCopy : ℤ) : Run Operand :=
  let nameIndex := (stageCount - lr.firstDefTime.tdiv ii + defCopy).tmod lr.numNames
  if 0 ≤ nameIndex then deref lr.names[nameIndex.toNat]? else .error .fault

/-- The name of the reference definition in copy `copy`. -/
def renameDest (ii stageCount : ℤ) (lr : LRInfo) (copy : ℤ) : Run Operand :=
  nameOf ii stageCount lr copy

/-- The name of a source or predicate operand in copy `copy`. -/
def renameSrc (ii stageCount unroll : ℤ) (lr : LRInfo) (info : MVEInfo) (copy : ℤ) :
    Run Operand :=
  nameOf ii stageCount lr (defCopy ii unroll copy info)

/-- The copy in which iteration `i` executes what is issued at `time`, when the copies are executed
in turn from copy `start` on. -/
def copyAt (ii unroll start time i : ℤ) : ℤ :=
  (time / ii + i + start) % unroll

/-! ### Counting names -/

section Count

variable {v : Variant} {ii : ℤ} {A : Set (ℤ × ℤ)} {lr : LRInfo}

theorem Tracks.lifetime_nonneg (h : Tracks v ii A lr) (hdef : (v.defTime, v.defSlot) ∈ A) :
    0 ≤ lr.lifetime := by
  have hle := h.last.le _ hdef
  rw [h.lifetime_eq]
  simp only [Before] at hle
  omega

/-- Enough names to write a name again at the last access at the earliest, and in that cycle not
before the slot of the last access. -/
theorem Tracks.le_namesNeeded (h : Tracks v ii A lr) (hii : 1 ≤ ii)
    (hdef : (v.defTime, v.defSlot) ∈ A) :
    1 ≤ namesNeeded ii lr ∧ lr.lifetime ≤ namesNeeded ii lr * ii ∧
      (lr.lifetime = namesNeeded ii lr * ii → lr.lastAccessSlot ≤ v.defSlot) := by
  have hnonneg := h.lifetime_nonneg hdef
  have hdiv := Int.mul_ediv_add_emod lr.lifetime ii
  have hmod := Int.emod_lt_of_pos lr.lifetime (show 0 < ii by omega)
  have hmod' := Int.emod_nonneg lr.lifetime (show ii ≠ 0 by omega)
  have hq := Int.ediv_nonneg hnonneg (show 0 ≤ ii by omega)
  have hafter := h.after_iff
  rw [namesNeeded]
  rw [Int.tdiv_eq_ediv_of_nonneg hnonneg]
  rw [Int.tmod_eq_emod_of_nonneg hnonneg] at hafter ⊢
  rw [mul_comm] at hdiv
  split_ifs with hmore
  · rw [add_mul, one_mul]
    refine ⟨by omega, by omega, fun heq ↦ ?_⟩
    omega
  · simp only [not_or, not_not] at hmore
    obtain ⟨hzero, hpos, hno⟩ := hmore
    rw [hzero, add_zero] at hdiv
    refine ⟨?_, hdiv.ge, fun _ ↦ ?_⟩
    · by_contra hlt
      have hq0 : lr.lifetime / ii = 0 := by omega
      rw [hq0, zero_mul] at hdiv
      omega
    · by_contra hlt
      exact hno (hafter.2 ⟨hzero, by omega⟩)

/-- A live range with the number of names that it needs. -/
def counted (ii : ℤ) (lr : LRInfo) : LRInfo :=
  { lr with numNames := namesNeeded ii lr }

/-- Counting names when all variants are registers. -/
theorem countNames_eq (ii : ℤ) {lrs : List LRInfo} (hreg : ∀ lr ∈ lrs, lr.isRegister = true)
    (unroll : ℤ) :
    ∃ unroll', countNames ii lrs unroll =
        .ok (lrs.map (counted ii), unroll') ∧
      unroll ≤ unroll' ∧ ∀ lr ∈ lrs, namesNeeded ii lr ≤ unroll' := by
  induction lrs generalizing unroll with
  | nil => exact ⟨unroll, rfl, le_rfl, by simp⟩
  | cons lr lrs ih =>
    obtain ⟨unroll', hrun, hle, hall⟩ := ih (fun l hl ↦ hreg l (List.mem_cons_of_mem lr hl))
      (if namesNeeded ii lr > unroll then namesNeeded ii lr else unroll)
    refine ⟨unroll', ?_, ?_, fun l hl ↦ ?_⟩
    · rw [countNames, if_pos (hreg lr List.mem_cons_self), hrun, Run.ok_bind, List.map_cons]
      rfl
    · split_ifs at hle <;> omega
    · rcases List.mem_cons.1 hl with rfl | hl
      · split_ifs at hle <;> omega
      · exact hall l hl

/-- Padding stops at a divisor of `unroll`, which itself is one. -/
theorem padNames_eq {unroll n : ℤ} {fuel : ℕ} (hn : 1 ≤ n) (hle : n ≤ unroll)
    (hfuel : unroll - n < fuel) :
    ∃ n', padNames unroll fuel n = .ok n' ∧ n ≤ n' ∧ n' ∣ unroll := by
  induction fuel generalizing n with
  | zero => omega
  | succ fuel ih =>
    rw [padNames, if_neg (by omega)]
    split_ifs with hmod
    · have hlt : n < unroll := by
        refine lt_of_le_of_ne hle fun heq ↦ hmod ?_
        rw [heq, Int.tmod_self]
      obtain ⟨n', hrun, hle', hdvd⟩ := @ih (n + 1) (by omega) (by omega) (by omega)
      exact ⟨n', hrun, by omega, hdvd⟩
    · exact ⟨n, rfl, le_rfl, Int.dvd_of_tmod_eq_zero (not_not.1 hmod)⟩

end Count

/-! ### Assigning names -/

/-- A live range with `n` names, of which the new ones follow register `base`. -/
def named (lr : LRInfo) (base n : ℤ) : LRInfo :=
  { lr with
    numNames := n
    names := lr.operand :: newNames lr.operand.ctype base (n - 1).toNat }

/-- The name with index `j`. -/
def nameAt (lr : LRInfo) (base j : ℤ) : Operand :=
  if j = 0 then lr.operand else ⟨base + j, lr.operand.ctype⟩

theorem names_named {lr : LRInfo} {base n j : ℤ} (hj : 0 ≤ j) (hn : j < n) :
    (named lr base n).names[j.toNat]? = some (nameAt lr base j) := by
  rw [named, nameAt]
  split_ifs with h0
  · subst h0
    rfl
  · obtain ⟨k, hk⟩ : ∃ k : ℕ, j = k + 1 := ⟨(j - 1).toNat, by omega⟩
    rw [hk, show ((k : ℤ) + 1).toNat = k + 1 by omega, List.getElem?_cons_succ, newNames,
      List.getElem?_map, List.getElem?_range (by omega), Option.map_some]
    congr 2
    ring

theorem nameAt_r {lr : LRInfo} {base j : ℤ} :
    (nameAt lr base j).r = if j = 0 then lr.operand.r else base + j := by
  rw [nameAt, apply_ite Operand.r]

theorem nameAt_inj {lr : LRInfo} {base j j' : ℤ} (hbase : lr.operand.r ≤ base) (hj : 0 ≤ j)
    (hj' : 0 ≤ j') (h : nameAt lr base j = nameAt lr base j') : j = j' := by
  have hr := congrArg Operand.r h
  rw [nameAt_r, nameAt_r] at hr
  split_ifs at hr <;> omega

/-- How the second pass names the live ranges: `num k` names for the `k`-th one, of which the new
ones follow register `base k`. -/
structure Named (unroll maxRegId : ℤ) (lrs lrs' : List LRInfo) (base num : ℕ → ℤ) : Prop where
  length_eq : lrs'.length = lrs.length
  get : ∀ k lr, lrs[k]? = some lr → lrs'[k]? = some (named lr (base k) (num k))
  le_num : ∀ k lr, lrs[k]? = some lr → lr.numNames ≤ num k
  dvd : ∀ k lr, lrs[k]? = some lr → num k ∣ unroll
  le_base : ∀ k lr, lrs[k]? = some lr → maxRegId ≤ base k
  lt_base : ∀ k k' lr, k < k' → lrs[k']? = some lr → base k + num k ≤ base k' + 1

theorem assignNames_eq {unroll : ℤ} {lrs : List LRInfo}
    (hlrs : ∀ lr ∈ lrs, lr.isRegister = true ∧ 1 ≤ lr.numNames ∧ lr.numNames ≤ unroll)
    (maxRegId : ℤ) :
    ∃ lrs' m base num, assignNames unroll lrs maxRegId = .ok (lrs', m) ∧
      Named unroll maxRegId lrs lrs' base num := by
  induction lrs generalizing maxRegId with
  | nil =>
    exact ⟨[], maxRegId, fun _ ↦ 0, fun _ ↦ 0, rfl,
      ⟨rfl, by simp, by simp, by simp, by simp, by simp⟩⟩
  | cons lr lrs ih =>
    obtain ⟨hreg, hone, hle⟩ := hlrs lr List.mem_cons_self
    obtain ⟨n, hpad, hn, hdvd⟩ := padNames_eq hone hle
      (show unroll - lr.numNames < (unroll.toNat + 1 : ℕ) by omega)
    obtain ⟨lrs', m, base, num, hrun, hnamed⟩ :=
      ih (fun l hl ↦ hlrs l (List.mem_cons_of_mem lr hl)) (maxRegId + (n - 1))
    refine ⟨named lr maxRegId n :: lrs', m, fun | 0 => maxRegId | k + 1 => base k,
      fun | 0 => n | k + 1 => num k, ?_, ?_⟩
    · rw [assignNames, if_pos hreg, hpad, Run.ok_bind, hrun, Run.ok_bind]
      rfl
    · have hcons : ∀ {P : ℕ → LRInfo → Prop}, P 0 lr → (∀ k l, lrs[k]? = some l → P (k + 1) l) →
          ∀ k l, (lr :: lrs)[k]? = some l → P k l := by
        intro P h0 hs k l hl
        cases k with
        | zero =>
          obtain rfl : lr = l := by simpa using hl
          exact h0
        | succ k => exact hs k l (by simpa using hl)
      exact {
        length_eq := by rw [List.length_cons, List.length_cons, hnamed.length_eq]
        get := hcons rfl fun k l hl ↦ by simpa using hnamed.get k l hl
        le_num := hcons hn hnamed.le_num
        dvd := hcons hdvd hnamed.dvd
        le_base := hcons le_rfl fun k l hl ↦ by have := hnamed.le_base k l hl; dsimp only; omega
        lt_base := fun k k' l hk hl ↦ by
          cases k' with
          | zero => omega
          | succ k' =>
            have hl' : lrs[k']? = some l := by simpa using hl
            cases k with
            | zero => have := hnamed.le_base k' l hl'; dsimp only; omega
            | succ k => exact hnamed.lt_base k k' l (by omega) hl' }

/-- With as many copies as the longest live range has names, the names are assigned. -/
theorem associateMveRegs_eq (ii : ℤ) (lrs : List LRInfo)
    (hlrs : ∀ lr ∈ lrs, lr.isRegister = true ∧ 1 ≤ namesNeeded ii lr) (maxRegId : ℤ) :
    ∃ unroll lrs' m base num, associateMveRegs ii lrs maxRegId = .ok (unroll, lrs', m) ∧
      (∀ lr ∈ lrs, 1 ≤ unroll) ∧
      Named unroll maxRegId (lrs.map (counted ii)) lrs' base num := by
  obtain ⟨unroll, hcount, -, hle⟩ := countNames_eq ii (fun lr hlr ↦ (hlrs lr hlr).1) 0
  have hcounted : ∀ lr ∈ lrs.map (counted ii),
      lr.isRegister = true ∧ 1 ≤ lr.numNames ∧ lr.numNames ≤ unroll := by
    intro l hl
    obtain ⟨lr, hlr, rfl⟩ := List.mem_map.1 hl
    exact ⟨(hlrs lr hlr).1, (hlrs lr hlr).2, hle lr hlr⟩
  obtain ⟨lrs', m, base, num, hassign, hnamed⟩ := assignNames_eq hcounted maxRegId
  refine ⟨unroll, lrs', m, base, num, ?_, fun lr hlr ↦ ?_, hnamed⟩
  · rw [associateMveRegs, hcount, Run.ok_bind]
    dsimp only
    rw [hassign, Run.ok_bind]
  · exact (hlrs lr hlr).2.trans (hle lr hlr)

end OpenImpact.Softpipe
