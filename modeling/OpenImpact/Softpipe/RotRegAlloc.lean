import OpenImpact.Softpipe.RotReg
import Mathlib.Algebra.BigOperators.Group.Finset.Basic
import Mathlib.Algebra.Order.BigOperators.Group.Finset

/-!
# The registers of the live ranges

The allocating loop gives every waiting live range a run of consecutive registers. Two runs overlap
in at most one register, the last of the earlier one, and then the earlier live range ends in a
cycle and slot of the kernel before the one in which the later starts.
-/

namespace OpenImpact.Softpipe

/-! ### Positions -/

/-- Where in the kernel a live range starts. -/
def defPos (ii : ℤ) (lr : LRInfo) : ℤ :=
  8 * (lr.firstDefTime % ii) + lr.firstDefSlot

/-- Where in the kernel a live range ends. -/
def lastPos (ii : ℤ) (lr : LRInfo) : ℤ :=
  8 * (lr.lastAccessTime % ii) + lr.lastAccessSlot

/-- A counted live range that needs rotating registers, one for each stage it extends over. -/
structure Waiting (ii stages : ℤ) (lr : LRInfo) : Prop where
  pos : 0 < lr.numNames
  numNames_eq : lr.numNames = lr.lastAccessTime / ii - lr.firstDefTime / ii + 1
  le : lr.numNames ≤ stages + 1
  liveIn_eq : lr.liveIn = false
  def_nonneg : 0 ≤ lr.firstDefTime
  defSlot : 0 ≤ lr.firstDefSlot ∧ lr.firstDefSlot < 8
  lastSlot : 0 ≤ lr.lastAccessSlot ∧ lr.lastAccessSlot < 8
  ordered : ¬Before (lr.lastAccessTime, lr.lastAccessSlot) (lr.firstDefTime, lr.firstDefSlot)

section Waiting

variable {ii stages : ℤ} {lr : LRInfo}

/-- A waiting live range is accessed at a time that is not negative. -/
theorem Waiting.last_nonneg (h : Waiting ii stages lr) : 0 ≤ lr.lastAccessTime := by
  have hdef := h.def_nonneg
  have hord := h.ordered
  simp only [Before] at hord
  omega

/-- The index into the array of operands is the position of the definition. -/
theorem Waiting.opArrayIndex_eq (h : Waiting ii stages lr) :
    opArrayIndex ii lr = defPos ii lr := by
  rw [opArrayIndex, h.liveIn_eq, Bool.false_and, if_neg (by decide), defPos,
    Int.tmod_eq_emod_of_nonneg h.def_nonneg]

/-- The index at which it is looked for a register to share is behind the last access. -/
theorem Waiting.shareIndex_eq (h : Waiting ii stages lr) :
    shareIndex ii lr = lastPos ii lr + 1 := by
  rw [shareIndex, lastPos, Int.tmod_eq_emod_of_nonneg h.last_nonneg]

/-- The definition has a slot in the kernel, of the eight for each cycle. -/
theorem Waiting.defPos_bounds (h : Waiting ii stages lr) (hii : 1 ≤ ii) :
    0 ≤ defPos ii lr ∧ defPos ii lr < 8 * ii := by
  have hmod0 := Int.emod_nonneg lr.firstDefTime (show ii ≠ 0 by omega)
  have hmod1 := Int.emod_lt_of_pos lr.firstDefTime (show 0 < ii by omega)
  have hslot := h.defSlot
  rw [defPos]
  omega

/-- The last access is not in front of the array. -/
theorem Waiting.lastPos_nonneg (h : Waiting ii stages lr) (hii : 1 ≤ ii) :
    0 ≤ lastPos ii lr := by
  have hmod0 := Int.emod_nonneg lr.lastAccessTime (show ii ≠ 0 by omega)
  have hslot := h.lastSlot
  rw [lastPos]
  omega

/-- A live range in one stage does not end before it starts. -/
theorem Waiting.defPos_le_lastPos (h : Waiting ii stages lr) (hone : lr.numNames = 1) :
    defPos ii lr ≤ lastPos ii lr := by
  have hdef := Int.mul_ediv_add_emod lr.firstDefTime ii
  have hlast := Int.mul_ediv_add_emod lr.lastAccessTime ii
  have hnum := h.numNames_eq
  have hord := h.ordered
  have hstage : lr.lastAccessTime / ii = lr.firstDefTime / ii := by omega
  have hslot := h.defSlot
  have hslot' := h.lastSlot
  rw [hstage] at hlast
  simp only [Before] at hord
  rw [defPos, lastPos]
  omega

end Waiting

/-! ### Runs of registers -/

/-- `n` registers from `start` on. -/
def regsFrom (ctype : Ctype) (start : ℤ) (n : ℕ) : List Operand :=
  (List.range n).map fun j : ℕ ↦ ⟨start + (j : ℤ), ctype⟩

/-- A live range with its registers. -/
def rotNamed (start : ℤ) (lr : LRInfo) : LRInfo :=
  { lr with
    numNames := lr.numNames + 1
    names := lr.operand :: regsFrom lr.operand.ctype start lr.numNames.toNat }

/-- One more register in a row. -/
theorem regsFrom_succ (ctype : Ctype) (start : ℤ) (n : ℕ) :
    regsFrom ctype start (n + 1) = ⟨start, ctype⟩ :: regsFrom ctype (start + 1) n := by
  rw [regsFrom, regsFrom, List.range_succ_eq_map, List.map_cons, List.map_map]
  congr 1
  · simp
  · refine List.map_congr_left fun j _ ↦ ?_
    simp only [Function.comp_apply, Operand.mk.injEq, and_true]
    omega

/-- Without sharing the registers start at the next free one. -/
theorem newRotRegs_false (ctype : Ctype) (n : ℕ) (next : ℤ) :
    newRotRegs ctype n false next = (regsFrom ctype next n, next + n) := by
  induction n generalizing next with
  | zero => simp [newRotRegs, regsFrom]
  | succ n ih =>
    rw [newRotRegs, if_neg (by decide), ih, regsFrom_succ]
    simp only [Prod.mk.injEq, true_and]
    omega

/-- The first register of a run: the last one of the previous run when it is shared. -/
def startReg (share : Bool) (next : ℤ) : ℤ :=
  if share then next - 1 else next

/-- With sharing they start one before it. -/
theorem newRotRegs_eq (ctype : Ctype) {n : ℕ} (hn : 0 < n) (share : Bool) (next : ℤ) :
    newRotRegs ctype n share next =
      (regsFrom ctype (startReg share next) n, startReg share next + n) := by
  cases share with
  | false => exact newRotRegs_false ctype n next
  | true =>
    obtain ⟨m, rfl⟩ : ∃ m, n = m + 1 := ⟨n - 1, by omega⟩
    rw [newRotRegs, if_pos rfl, newRotRegs_false, regsFrom_succ, startReg, if_pos rfl]
    simp only [Prod.mk.injEq, sub_add_cancel, true_and]
    omega

/-! ### The allocating loop -/

/-- Live range `k` has its registers. -/
structure Done (l0 : List LRInfo) (rem : Finset ℕ) (k : ℕ) (lr : LRInfo) : Prop where
  get : l0[k]? = some lr
  pos : 0 < lr.numNames
  notMem : k ∉ rem

/-- The last register of live range `k`. -/
def endReg (start : ℕ → ℤ) (k : ℕ) (lr : LRInfo) : ℤ :=
  start k + lr.numNames - 1

/-- The registers of `l` come after those of `k`, its first one maybe being the last of `k`, which
is then read for the last time before `l` starts. -/
def Follows (ii : ℤ) (start : ℕ → ℤ) (k : ℕ) (lr : LRInfo) (l : ℕ) (lr' : LRInfo) : Prop :=
  endReg start k lr < start l ∨ endReg start k lr = start l ∧ lastPos ii lr < defPos ii lr'

/-- Live range `k` has the last register in use, and no other that has it ends later. -/
structure Latest (ii : ℤ) (l0 : List LRInfo) (rem : Finset ℕ) (start : ℕ → ℤ) (next : ℤ) (k : ℕ)
    (lr : LRInfo) : Prop where
  done : Done l0 rem k lr
  end_eq : endReg start k lr = next - 1
  latest : ∀ l lr', Done l0 rem l lr' → lr'.operand.ctype = lr.operand.ctype →
    endReg start l lr' < endReg start k lr ∨
      endReg start l lr' = endReg start k lr ∧ lastPos ii lr' ≤ lastPos ii lr

/-- The bucket of live range `k`. -/
def posOf (ii : ℤ) (l0 : List LRInfo) (k : ℕ) : ℕ :=
  (l0[k]?.map fun lr ↦ (defPos ii lr).toNat).getD 0

/-- The names of kind `c` that live range `k` needs. -/
def need (l0 : List LRInfo) (c : Ctype) (k : ℕ) : ℤ :=
  (l0[k]?.map fun lr ↦ if lr.operand.ctype = c then lr.numNames else 0).getD 0

/-- The invariant of the allocating loop: `rem` waits, and the others have registers from `start`
on. -/
structure Allocated (ii : ℤ) (l0 : List LRInfo) (first bound : Ctype → ℤ) (s : RotState)
    (rem : Finset ℕ) (start : ℕ → ℤ) : Prop where
  pool : Pool (posOf ii l0) s.opArray rem
  rem_get : ∀ k ∈ rem, ∃ lr, l0[k]? = some lr ∧ 0 < lr.numNames
  length_eq : s.lrs.length = l0.length
  done_get : ∀ k lr, Done l0 rem k lr → s.lrs[k]? = some (rotNamed (start k) lr)
  other_get : ∀ k lr, l0[k]? = some lr → ¬Done l0 rem k lr → s.lrs[k]? = some lr
  first_le : ∀ c, first c ≤ s.next c
  first_le_start : ∀ k lr, Done l0 rem k lr → first lr.operand.ctype ≤ start k
  end_lt : ∀ k lr, Done l0 rem k lr → endReg start k lr < s.next lr.operand.ctype
  follows : ∀ k lr l lr', Done l0 rem k lr → Done l0 rem l lr' → k ≠ l →
    lr.operand.ctype = lr'.operand.ctype →
    Follows ii start k lr l lr' ∨ Follows ii start l lr' k lr
  prev : ∀ p, s.prev = some p → ∃ k lr, p = rotNamed (start k) lr ∧
    Latest ii l0 rem start (s.next lr.operand.ctype) k lr
  count : ∀ c, s.next c + ∑ k ∈ rem, need l0 c k ≤ bound c

section Step

variable {ii stages : ℤ} {l0 : List LRInfo} {first bound : Ctype → ℤ} {s : RotState}
  {rem : Finset ℕ} {start : ℕ → ℤ} {k l : ℕ} {lr lr' : LRInfo} {share : Bool}

/-- After a live range is taken from the list, it is the one more that is done. -/
theorem done_erase (hk : l0[k]? = some lr) (hpos : 0 < lr.numNames) :
    Done l0 (rem.erase k) l lr' ↔ Done l0 rem l lr' ∨ l = k ∧ lr' = lr := by
  constructor
  · rintro ⟨hget, hpos', hnot⟩
    by_cases hl : l = k
    · subst hl
      exact Or.inr ⟨rfl, Option.some.inj (hget.symm.trans hk)⟩
    · exact Or.inl ⟨hget, hpos', fun hmem ↦ hnot (Finset.mem_erase.2 ⟨hl, hmem⟩)⟩
  · rintro (⟨hget, hpos', hnot⟩ | ⟨rfl, rfl⟩)
    · exact ⟨hget, hpos', fun hmem ↦ hnot (Finset.mem_of_mem_erase hmem)⟩
    · exact ⟨hk, hpos, Finset.notMem_erase l rem⟩

/-- What the next live range shares its first register with, if it does. -/
def ShareOk (ii : ℤ) (l0 : List LRInfo) (s : RotState) (rem : Finset ℕ) (start : ℕ → ℤ)
    (share : Bool) (lr : LRInfo) : Prop :=
  share = true → ∃ k lr', Latest ii l0 rem start (s.next lr'.operand.ctype) k lr' ∧
    lr'.operand.ctype = lr.operand.ctype ∧ lastPos ii lr' < defPos ii lr

/-- If the first register is shared, the live range that had it is last accessed before this one is
defined. -/
theorem Allocated.shareOk (h : Allocated ii l0 first bound s rem start) (hii : 1 ≤ ii)
    (hwait : ∀ lr ∈ l0, 0 < lr.numNames → Waiting ii stages lr)
    {opArray : List (List ℕ)}
    (hsel : Selected ii s.lrs (posOf ii l0) rem s.prev share k opArray)
    (hk : l0[k]? = some lr) (hpos : 0 < lr.numNames) :
    ShareOk ii l0 s rem start share lr := by
  intro hshare
  obtain ⟨p, hp, hctype, hindex⟩ := hsel.share_imp hshare
  obtain ⟨l, lr', rfl, hlatest⟩ := h.prev p hp
  have hget := h.other_get k lr hk fun hdone ↦ hdone.notMem hsel.mem
  have hw' := hwait lr' (List.mem_of_getElem? hlatest.done.get) hlatest.done.pos
  rw [hget, Option.map_some, Option.some.injEq] at hctype
  have hshareIndex : shareIndex ii (rotNamed (start l) lr') = lastPos ii lr' + 1 :=
    hw'.shareIndex_eq
  rw [hshareIndex, posOf, hk, Option.map_some, Option.getD_some] at hindex
  have hdef := (hwait lr (List.mem_of_getElem? hk) hpos).defPos_bounds hii
  exact ⟨l, lr', hlatest, hctype.symm, by omega⟩

/-- The new run comes after all runs of its kind. -/
theorem Allocated.follows_new (h : Allocated ii l0 first bound s rem start)
    (hshare : ShareOk ii l0 s rem start share lr) (hl : Done l0 rem l lr')
    (hctype : lr'.operand.ctype = lr.operand.ctype) :
    endReg start l lr' < startReg share (s.next lr.operand.ctype) ∨
      endReg start l lr' = startReg share (s.next lr.operand.ctype) ∧
        lastPos ii lr' < defPos ii lr := by
  have hend := h.end_lt l lr' hl
  rw [hctype] at hend
  cases share with
  | false => exact Or.inl hend
  | true =>
    obtain ⟨k, lp, hlatest, hp, hlast⟩ := hshare rfl
    have heq := hlatest.end_eq
    rw [hp] at heq
    rw [startReg, if_pos rfl, ← heq]
    rcases hlatest.latest l lr' hl (hctype.trans hp.symm) with hlt | ⟨hle, hle'⟩
    · exact Or.inl hlt
    · exact Or.inr ⟨hle, hle'.trans_lt hlast⟩

/-- The first register given is not below the first of the class. -/
theorem Allocated.first_le_startReg (h : Allocated ii l0 first bound s rem start)
    (hshare : ShareOk ii l0 s rem start share lr) :
    first lr.operand.ctype ≤ startReg share (s.next lr.operand.ctype) := by
  cases share with
  | false => exact h.first_le lr.operand.ctype
  | true =>
    obtain ⟨k, lp, hlatest, hp, -⟩ := hshare rfl
    have heq := hlatest.end_eq
    have hfirst := h.first_le_start k lp hlatest.done
    have hpos := hlatest.done.pos
    rw [endReg] at heq
    rw [hp] at heq hfirst
    rw [startReg, if_pos rfl]
    omega

/-- Sharing gives back at most one register. -/
theorem startReg_bounds (share : Bool) (next : ℤ) :
    next - 1 ≤ startReg share next ∧ startReg share next ≤ next := by
  cases share <;> simp [startReg]

/-- The registers still needed, with those of the live range that is next. -/
theorem sum_need_erase (hk : l0[k]? = some lr) (hmem : k ∈ rem) (c : Ctype) :
    ∑ l ∈ rem, need l0 c l =
      (if lr.operand.ctype = c then lr.numNames else 0) + ∑ l ∈ rem.erase k, need l0 c l := by
  rw [← Finset.add_sum_erase rem (need l0 c) hmem]
  congr 1
  rw [need, hk, Option.map_some, Option.getD_some]

/-- The state after live range `k` got its registers. -/
def RotState.assign (s : RotState) (share : Bool) (k : ℕ) (lr : LRInfo)
    (opArray : List (List ℕ)) : RotState where
  opArray := opArray
  lrs := s.lrs.set k (rotNamed (startReg share (s.next lr.operand.ctype)) lr)
  prev := some (rotNamed (startReg share (s.next lr.operand.ctype)) lr)
  next := Function.update s.next lr.operand.ctype
    (startReg share (s.next lr.operand.ctype) + lr.numNames)

/-- The next free register of the class after its registers are given. -/
theorem assign_next_self {opArray : List (List ℕ)} :
    (s.assign share k lr opArray).next lr.operand.ctype =
      startReg share (s.next lr.operand.ctype) + lr.numNames :=
  Function.update_self _ _ _

/-- The other classes keep theirs. -/
theorem assign_next_of_ne {opArray : List (List ℕ)} {c : Ctype} (hc : c ≠ lr.operand.ctype) :
    (s.assign share k lr opArray).next c = s.next c :=
  Function.update_of_ne hc _ _

/-- The code gives a waiting live range its registers and does nothing else. -/
theorem assignRotRegs_eq {opArray : List (List ℕ)} (hw : Waiting ii stages lr)
    (hk : s.lrs[k]? = some lr) :
    assignRotRegs stages s share k opArray = .ok (s.assign share k lr opArray) := by
  have hpos := hw.pos
  have hle := hw.le
  rw [assignRotRegs, hk, deref_some, Run.ok_bind, if_neg (by omega),
    newRotRegs_eq lr.operand.ctype (show 0 < lr.numNames.toNat by omega),
    Int.toNat_of_nonneg hpos.le]
  rfl

/-- Giving registers to one more live range. -/
theorem Allocated.step (h : Allocated ii l0 first bound s rem start)
    (hshare : ShareOk ii l0 s rem start share lr) {opArray : List (List ℕ)}
    (hpool : Pool (posOf ii l0) opArray (rem.erase k)) (hmem : k ∈ rem) (hk : l0[k]? = some lr)
    (hw : Waiting ii stages lr) :
    Allocated ii l0 first bound (s.assign share k lr opArray) (rem.erase k)
      (Function.update start k (startReg share (s.next lr.operand.ctype))) := by
  have hpos := hw.pos
  have hstart := startReg_bounds share (s.next lr.operand.ctype)
  -- the live ranges that are done are those from before and `lr`, whose registers are the old ones
  have hdone : ∀ {l : ℕ} {lr' : LRInfo},
      Done l0 (rem.erase k) l lr' ↔ Done l0 rem l lr' ∨ l = k ∧ lr' = lr :=
    done_erase hk hpos
  have hne : ∀ {l : ℕ} {lr' : LRInfo}, Done l0 rem l lr' → l ≠ k :=
    fun hl heq ↦ hl.notMem (heq ▸ hmem)
  have hend : ∀ {l : ℕ} {lr' : LRInfo}, Done l0 rem l lr' →
      endReg (Function.update start k (startReg share (s.next lr.operand.ctype))) l lr' =
        endReg start l lr' := by
    intro l lr' hl
    rw [endReg, Function.update_of_ne (hne hl), endReg]
  have hnew : endReg (Function.update start k (startReg share (s.next lr.operand.ctype))) k lr =
      startReg share (s.next lr.operand.ctype) + lr.numNames - 1 := by
    rw [endReg, Function.update_self]
  have hnext : ∀ c, s.next c ≤ (s.assign share k lr opArray).next c := by
    intro c
    by_cases hc : c = lr.operand.ctype
    · subst hc
      rw [assign_next_self]
      omega
    · rw [assign_next_of_ne hc]
  -- what was done before comes before `lr` in the order of the registers
  have hfollows : ∀ {l : ℕ} {lr' : LRInfo}, Done l0 rem l lr' →
      lr'.operand.ctype = lr.operand.ctype →
      Follows ii (Function.update start k (startReg share (s.next lr.operand.ctype))) l lr' k lr := by
    intro l lr' hl hctype
    rw [Follows, hend hl, Function.update_self]
    exact h.follows_new hshare hl hctype
  have hklen : k < s.lrs.length := by
    rw [h.length_eq]
    exact (List.getElem?_eq_some_iff.1 hk).1
  -- one field of the invariant after the other, for the old live ranges and for `lr`
  refine ⟨hpool, ?_, ?_, ?_, ?_, ?_, ?_, ?_, ?_, ?_, ?_⟩
  · exact fun l hl ↦ h.rem_get l (Finset.mem_of_mem_erase hl)
  · rw [RotState.assign, List.length_set, h.length_eq]
  · intro l lr' hl
    rcases hdone.1 hl with hl | ⟨rfl, rfl⟩
    · rw [RotState.assign, List.getElem?_set_ne (hne hl).symm, Function.update_of_ne (hne hl)]
      exact h.done_get l lr' hl
    · rw [RotState.assign, List.getElem?_set_self hklen, Function.update_self]
  · intro l lr' hl hnot
    have hlk : l ≠ k := by
      rintro rfl
      exact hnot (hdone.2 (Or.inr ⟨rfl, Option.some.inj (hl.symm.trans hk)⟩))
    rw [RotState.assign, List.getElem?_set_ne hlk.symm]
    exact h.other_get l lr' hl fun hl' ↦ hnot (hdone.2 (Or.inl hl'))
  · exact fun c ↦ (h.first_le c).trans (hnext c)
  · intro l lr' hl
    rcases hdone.1 hl with hl | ⟨rfl, rfl⟩
    · rw [Function.update_of_ne (hne hl)]
      exact h.first_le_start l lr' hl
    · rw [Function.update_self]
      exact h.first_le_startReg hshare
  · intro l lr' hl
    rcases hdone.1 hl with hl | ⟨rfl, rfl⟩
    · rw [hend hl]
      exact (h.end_lt l lr' hl).trans_le (hnext _)
    · rw [hnew, assign_next_self]
      omega
  · intro l lr₁ m lr₂ hl hm hlm hctype
    rcases hdone.1 hl with hl' | ⟨rfl, rfl⟩
    · rcases hdone.1 hm with hm' | ⟨rfl, rfl⟩
      · have hold := h.follows l lr₁ m lr₂ hl' hm' hlm hctype
        simp only [Follows, hend hl', hend hm', Function.update_of_ne (hne hl'),
          Function.update_of_ne (hne hm')]
        exact hold
      · exact Or.inl (hfollows hl' hctype)
    · rcases hdone.1 hm with hm' | ⟨rfl, rfl⟩
      · exact Or.inr (hfollows hm' hctype.symm)
      · exact absurd rfl hlm
  · intro p hp
    obtain rfl := Option.some.inj hp
    refine ⟨k, lr, by rw [Function.update_self], hdone.2 (Or.inr ⟨rfl, rfl⟩), ?_, ?_⟩
    · rw [hnew, assign_next_self]
    · intro l lr' hl hctype
      rcases hdone.1 hl with hl | ⟨rfl, rfl⟩
      · have hafter := h.follows_new hshare hl hctype
        have hone := hw.defPos_le_lastPos
        rw [hend hl, hnew]
        omega
      · exact Or.inr ⟨rfl, le_rfl⟩
  · intro c
    have hcount := h.count c
    rw [sum_need_erase hk hmem c] at hcount
    by_cases hc : c = lr.operand.ctype
    · subst hc
      rw [if_pos rfl] at hcount
      rw [assign_next_self]
      omega
    · rw [if_neg (Ne.symm hc)] at hcount
      rw [assign_next_of_ne hc]
      omega

/-- The whole loop. -/
theorem Allocated.run {fuel : ℕ} (h : Allocated ii l0 first bound s rem start) (hii : 1 ≤ ii)
    (hwait : ∀ lr ∈ l0, 0 < lr.numNames → Waiting ii stages lr) (hfuel : rem.card < fuel) :
    ∃ s' start', allocRotRegs ii stages fuel s = .ok s' ∧
      Allocated ii l0 first bound s' ∅ start' := by
  induction fuel generalizing s rem start with
  | zero => omega
  | succ fuel ih =>
    have hprev : ∀ p, s.prev = some p → 0 ≤ shareIndex ii p := by
      intro p hp
      obtain ⟨l, lr', rfl, hlatest⟩ := h.prev p hp
      have hw := hwait lr' (List.mem_of_getElem? hlatest.done.get) hlatest.done.pos
      have hshareIndex : shareIndex ii (rotNamed (start l) lr') = lastPos ii lr' + 1 :=
        hw.shareIndex_eq
      have hlast := hw.lastPos_nonneg hii
      omega
    rcases getBestLr_eq s.lrs h.pool hprev with
      ⟨rfl, hbest⟩ | ⟨share, k, opArray, hbest, hsel⟩
    · exact ⟨s, start, by rw [allocRotRegs, hbest]; rfl, h⟩
    · obtain ⟨lr, hk, hpos⟩ := h.rem_get k hsel.mem
      have hw := hwait lr (List.mem_of_getElem? hk) hpos
      have hshare := h.shareOk hii hwait hsel hk hpos
      have hget := h.other_get k lr hk fun hdone ↦ hdone.notMem hsel.mem
      have hnext := h.step hshare hsel.pool hsel.mem hk hw
      have hcard := Finset.card_erase_lt_of_mem hsel.mem
      obtain ⟨s', start', hrun, hall⟩ := ih hnext (by omega)
      refine ⟨s', start', ?_, hall⟩
      rw [allocRotRegs, hbest, Run.ok_bind]
      dsimp only
      rw [assignRotRegs_eq hw hget, Run.ok_bind, hrun]

end Step

end OpenImpact.Softpipe
