import OpenImpact.Softpipe.RotRegReads

/-!
# No value is overwritten

Two values in one physical register are of one variant, a whole turn of the registers apart, or of
two variants whose runs of registers follow each other.

`rotRegs_correct` says that each value is read from the register it was written to, before another
value gets there, that registers are in range, and how many are used. It rests on `Allocated`, the
order in which runs of registers follow each other, and on `Waiting` for the values that are not yet
assigned. Cycles and numbers of registers are integers of any size, as in `MveReads`. What the
source does when there are too few registers is left out.
-/

namespace OpenImpact.Softpipe

/-! ### Values in one physical register -/

section Disjoint

variable {ii stages size : ℤ} {l0 : List LRInfo} {first bound : Ctype → ℤ} {s : RotState}
  {start : ℕ → ℤ} {k m : ℕ} {l l' : LRInfo} {i j : ℤ}

/-- Where live range `l` starts in iteration `i`. -/
def startAt (ii i : ℤ) (l : LRInfo) : ℤ × ℤ :=
  (l.firstDefTime + i * ii, l.firstDefSlot)

/-- A copy is defined one stage later in each pass. -/
theorem startAt_pass (hii : 1 ≤ ii) : (startAt ii i l).1 / ii = l.firstDefTime / ii + i :=
  Int.add_mul_ediv_right _ _ (by omega)

/-- And last accessed one stage later. -/
theorem lastAt_pass (hii : 1 ≤ ii) : (lastAt ii i l).1 / ii = l.lastAccessTime / ii + i :=
  Int.add_mul_ediv_right _ _ (by omega)

/-- The distance of two registers, shifted by the passes of their definitions, is a multiple of the
number of registers. -/
def SamePhys (ii size : ℤ) (start : ℕ → ℤ) (k : ℕ) (l : LRInfo) (i : ℤ) (m : ℕ) (l' : LRInfo)
    (j : ℤ) : Prop :=
  size ∣ (start k - (l.firstDefTime / ii + i)) - (start m - (l'.firstDefTime / ii + j))

/-- Of two copies with one physical register, one following the other, the first is last accessed
before the second is defined. -/
theorem Allocated.last_before_of_follows (h : Allocated ii l0 first bound s ∅ start) (hii : 1 ≤ ii)
    (hw : Waiting ii stages l) (hw' : Waiting ii stages l') (hk : Done l0 ∅ k l)
    (hm : Done l0 ∅ m l') (hctype : l.operand.ctype = l'.operand.ctype)
    (hsize : s.next l.operand.ctype - first l.operand.ctype ≤ size) (hpos : 1 ≤ size)
    (hfollows : Follows ii start k l m l') (hsame : SamePhys ii size start k l i m l' j) :
    Before (lastAt ii i l) (startAt ii j l') ∨ Before (lastAt ii j l') (startAt ii i l) := by
  obtain ⟨c, hc⟩ := hsame
  have hnum := hw.numNames_eq
  have hnum' := hw'.numNames_eq
  have hfirst := h.first_le_start k l hk
  have hend := h.end_lt m l' hm
  rw [← hctype] at hend
  rw [Follows] at hfollows
  rw [endReg] at hfollows hend
  rcases le_or_gt 0 c with hc0 | hc0
  · have hmul : 0 ≤ size * c := mul_nonneg (by omega) hc0
    left
    by_cases hlt : l.lastAccessTime / ii + i < l'.firstDefTime / ii + j
    · refine before_of_ediv_lt hii ?_
      rwa [lastAt_pass hii, startAt_pass hii]
    · -- The later run shares the last register of the earlier one, in the same pass.
      refine before_of_pos_lt ii ?_ hw.lastSlot hw'.defSlot ?_
      · rw [lastAt_pass hii, startAt_pass hii]
        omega
      · have hlast : 8 * ((l.lastAccessTime + i * ii) % ii) + l.lastAccessSlot = lastPos ii l := by
          rw [Int.add_mul_emod_self_right, lastPos]
        have hdef : 8 * ((l'.firstDefTime + j * ii) % ii) + l'.firstDefSlot = defPos ii l' := by
          rw [Int.add_mul_emod_self_right, defPos]
        rw [lastAt, startAt, hlast, hdef]
        omega
  · have hmul : size * c ≤ size * (-1) := mul_le_mul_of_nonneg_left (by omega) (by omega)
    right
    refine before_of_ediv_lt hii ?_
    rw [lastAt_pass hii, startAt_pass hii]
    omega

/-- Values of two iterations of one variant. -/
theorem Allocated.last_before_of_iter_lt (h : Allocated ii l0 first bound s ∅ start) (hii : 1 ≤ ii)
    (hw : Waiting ii stages l) (hk : Done l0 ∅ k l)
    (hsize : s.next l.operand.ctype - first l.operand.ctype ≤ size) (hpos : 1 ≤ size) (hij : i < j)
    (hsame : SamePhys ii size start k l i k l j) :
    Before (lastAt ii i l) (startAt ii j l) := by
  obtain ⟨c, hc⟩ := hsame
  have hnum := hw.numNames_eq
  have hfirst := h.first_le_start k l hk
  have hend := h.end_lt k l hk
  rw [endReg] at hend
  have hc1 : 1 ≤ c := by
    by_contra hlt
    have hmul : size * c ≤ 0 := mul_nonpos_of_nonneg_of_nonpos (by omega) (by omega)
    omega
  have hmul : size * 1 ≤ size * c := mul_le_mul_of_nonneg_left hc1 (by omega)
  refine before_of_ediv_lt hii ?_
  rw [lastAt_pass hii, startAt_pass hii]
  omega

/-- Having one physical register is symmetric. -/
theorem SamePhys.symm (h : SamePhys ii size start k l i m l' j) :
    SamePhys ii size start m l' j k l i := by
  rw [SamePhys, ← Int.dvd_neg, neg_sub]
  exact h

/-- So for any two different copies with one physical register. -/
theorem Allocated.last_before (h : Allocated ii l0 first bound s ∅ start) (hii : 1 ≤ ii)
    (hw : Waiting ii stages l) (hw' : Waiting ii stages l') (hk : Done l0 ∅ k l)
    (hm : Done l0 ∅ m l') (hctype : l.operand.ctype = l'.operand.ctype)
    (hsize : s.next l.operand.ctype - first l.operand.ctype ≤ size) (hpos : 1 ≤ size)
    (hne : (k, i) ≠ (m, j)) (hsame : SamePhys ii size start k l i m l' j) :
    Before (lastAt ii i l) (startAt ii j l') ∨ Before (lastAt ii j l') (startAt ii i l) := by
  by_cases hkm : k = m
  · subst hkm
    obtain rfl : l = l' := Option.some.inj (hk.get.symm.trans hm.get)
    rcases lt_trichotomy i j with hij | rfl | hij
    · exact Or.inl (h.last_before_of_iter_lt hii hw hk hsize hpos hij hsame)
    · exact absurd rfl hne
    · exact Or.inr (h.last_before_of_iter_lt hii hw hk hsize hpos hij hsame.symm)
  · rcases h.follows k l m l' hk hm hkm hctype with hfollows | hfollows
    · exact h.last_before_of_follows hii hw hw' hk hm hctype hsize hpos hfollows hsame
    · exact (h.last_before_of_follows hii hw' hw hm hk hctype.symm (hctype ▸ hsize) hpos hfollows
        hsame.symm).symm

end Disjoint

/-! ### The allocation -/

/-- What the allocation does with the variants `vs`. -/
structure RotAssigned (f : RotFile) (ii stages : ℤ) (vs : List Variant) (lrs : List LRInfo)
    (alloc : Ctype → ℤ) (start : ℕ → ℤ) : Prop where
  length_eq : lrs.length = vs.length
  static : ∀ (k : ℕ) (v : Variant), vs[k]? = some v →
    rotNeeded ii (v.constructLr true ii) ≤ 0 →
    lrs[k]? = some (rotCounted ii (v.constructLr true ii))
  rotating : ∀ (k : ℕ) (v : Variant), vs[k]? = some v →
    0 < rotNeeded ii (v.constructLr true ii) →
    lrs[k]? = some (rotNamed (start k) (rotCounted ii (v.constructLr true ii)))
  last_before : ∀ (k m : ℕ) (v w : Variant) (i j size : ℤ), vs[k]? = some v → vs[m]? = some w →
    0 < rotNeeded ii (v.constructLr true ii) → 0 < rotNeeded ii (w.constructLr true ii) →
    (k, i) ≠ (m, j) → 1 ≤ size → alloc .integer ≤ size →
    SamePhys ii size start k (rotCounted ii (v.constructLr true ii)) i m
      (rotCounted ii (w.constructLr true ii)) j →
    Before (lastAt ii i (v.constructLr true ii)) (w.defAt ii j) ∨
      Before (lastAt ii j (w.constructLr true ii)) (v.defAt ii i)

section Allocation

variable {f : RotFile} {ii stages : ℤ} {vs : List Variant}

/-- The live ranges of a schedule can be counted if those of macro registers need no more than one
name. -/
theorem countable_constructLr (hii : 1 ≤ ii) (hsched : ∀ v ∈ vs, v.RotScheduled stages ii)
    (hwide : ∀ v ∈ vs, v.isMacro = true → rotNeeded ii (v.constructLr true ii) ≤ 1) :
    Countable ii stages (vs.map fun v ↦ v.constructLr true ii) := by
  refine ⟨?_, ?_, ?_⟩
  · intro lr hlr
    obtain ⟨v, hv, rfl⟩ := List.mem_map.1 hlr
    exact rotNumNames_eq (hsched v hv) hii (hwide v hv)
  · intro lr hlr
    obtain ⟨v, hv, rfl⟩ := List.mem_map.1 hlr
    exact rotNeeded_nonneg (hsched v hv) hii
  · intro lr hlr hpos
    obtain ⟨v, hv, rfl⟩ := List.mem_map.1 hlr
    exact waiting_rotCounted (hsched v hv) hii hpos

/-- A counted live range that needs names waits for them. -/
theorem waiting_of_countable {lrs : List LRInfo} (h : Countable ii stages lrs) :
    ∀ lr ∈ lrs.map (rotCounted ii), 0 < lr.numNames → Waiting ii stages lr := by
  intro lr hlr hpos
  obtain ⟨lr', hlr', rfl⟩ := List.mem_map.1 hlr
  exact h.waiting lr' hlr' hpos

section Filled

variable {lrs : List LRInfo} {opArray : List (List ℕ)} {rem : Finset ℕ}

/-- No more live ranges wait than there are, so that the loop has enough rounds. -/
theorem card_lt_of_filled (h : Filled ii (lrs.map (rotCounted ii)) lrs 0 ∅ opArray rem) :
    rem.card < (lrs.map (rotCounted ii)).length + 1 := by
  have hsub : rem ⊆ Finset.range (lrs.map (rotCounted ii)).length := by
    intro k hk
    rcases h.mem_imp k hk with hk | ⟨lr, hget, -⟩
    · exact absurd hk (Finset.notMem_empty k)
    · exact Finset.mem_range.2 (List.getElem?_eq_some_iff.1 hget).1
  have hcard := Finset.card_le_card hsub
  rw [Finset.card_range] at hcard
  omega

/-- The invariant holds before the allocating loop. -/
theorem allocated_of_filled (h : Filled ii (lrs.map (rotCounted ii)) lrs 0 ∅ opArray rem)
    (first : Ctype → ℤ) :
    Allocated ii (lrs.map (rotCounted ii)) first (fun c ↦ first c + needSum ii lrs c)
      ⟨opArray, lrs.map (rotCounted ii), none, first⟩ rem (fun _ ↦ 0) := by
  have hnot : ∀ {k : ℕ} {lr : LRInfo}, ¬Done (lrs.map (rotCounted ii)) rem k lr := by
    rintro k lr ⟨hget, hpos, hmem⟩
    rw [List.getElem?_map] at hget
    obtain ⟨lr', hget', rfl⟩ := Option.map_eq_some_iff.1 hget
    exact hmem (Nat.zero_add k ▸ h.mem k lr' hget' hpos)
  exact {
    pool := h.pool
    rem_get := fun k hk ↦ (h.mem_imp k hk).resolve_left (Finset.notMem_empty k)
    length_eq := rfl
    done_get := fun k lr hd ↦ absurd hd hnot
    other_get := fun k lr hget _ ↦ hget
    first_le := fun c ↦ le_rfl
    first_le_start := fun k lr hd ↦ absurd hd hnot
    end_lt := fun k lr hd ↦ absurd hd hnot
    follows := fun k lr l lr' hd ↦ absurd hd hnot
    prev := by simp
    count := fun c ↦ by rw [h.sum_eq c, Finset.sum_empty, zero_add] }

end Filled

/-- Counting names does not move the definition. -/
theorem startAt_rotCounted (v : Variant) (ii i : ℤ) :
    startAt ii i (rotCounted ii (v.constructLr true ii)) = v.defAt ii i := by
  have hdesc := (tracks_constructLr v true ii).describes
  rw [startAt, Variant.defAt, ← hdesc.time_eq, ← hdesc.slot_eq]
  rfl

/-- What the allocation gives is what the theorem below asks of the registers. -/
theorem Allocated.rotAssigned {bound : Ctype → ℤ} {s : RotState} {start : ℕ → ℤ}
    (h : Allocated ii ((vs.map fun v ↦ v.constructLr true ii).map (rotCounted ii))
      (f.initNext stages) bound s ∅ start) (hii : 1 ≤ ii)
    (hctype : ∀ v ∈ vs, v.operand.ctype = .integer)
    (hsched : ∀ v ∈ vs, v.RotScheduled stages ii)
    (hbase : f.initNext stages .integer = f.base .integer) :
    RotAssigned f ii stages vs s.lrs (fun c ↦ s.next c - f.base c) start := by
  have hget : ∀ (k : ℕ) (v : Variant), vs[k]? = some v →
      ((vs.map fun v ↦ v.constructLr true ii).map (rotCounted ii))[k]? =
        some (rotCounted ii (v.constructLr true ii)) := by
    intro k v hk
    rw [List.getElem?_map, List.getElem?_map, hk, Option.map_some, Option.map_some]
  have hinteger : ∀ (k : ℕ) (v : Variant), vs[k]? = some v →
      (rotCounted ii (v.constructLr true ii)).operand.ctype = .integer := by
    intro k v hk
    rw [← hctype v (List.mem_of_getElem? hk),
      ← (tracks_constructLr v true ii).describes.operand_eq]
    rfl
  refine ⟨by rw [h.length_eq, List.length_map, List.length_map], ?_, ?_, ?_⟩
  · intro k v hk hle
    refine h.other_get k _ (hget k v hk) fun hdone ↦ ?_
    exact absurd hdone.pos (not_lt.2 hle)
  · intro k v hk hpos
    exact h.done_get k _ ⟨hget k v hk, hpos, Finset.notMem_empty k⟩
  · intro k m v w i j size hk hm hv hw hne hsize halloc hsame
    have hwait := waiting_rotCounted (hsched v (List.mem_of_getElem? hk)) hii hv
    have hwait' := waiting_rotCounted (hsched w (List.mem_of_getElem? hm)) hii hw
    have hsize' : s.next (rotCounted ii (v.constructLr true ii)).operand.ctype -
        f.initNext stages (rotCounted ii (v.constructLr true ii)).operand.ctype ≤ size := by
      rw [hinteger k v hk, hbase]
      exact halloc
    have hbefore := h.last_before hii hwait hwait' ⟨hget k v hk, hv, Finset.notMem_empty k⟩
      ⟨hget m w hm, hw, Finset.notMem_empty m⟩ ((hinteger k v hk).trans (hinteger m w hm).symm)
      hsize' hsize hne hsame
    rwa [startAt_rotCounted, startAt_rotCounted] at hbefore

/-- Counting and allocating both return, and no more is allocated than counted. -/
theorem rotAssigned_associateRotRegs (f : RotFile) (hii : 1 ≤ ii)
    (hctype : ∀ v ∈ vs, v.operand.ctype = .integer)
    (hsched : ∀ v ∈ vs, v.RotScheduled stages ii)
    (hwide : ∀ v ∈ vs, v.isMacro = true → rotNeeded ii (v.constructLr true ii) ≤ 1) :
    ∃ lrs alloc counted available start,
      associateRotRegs f ii stages (vs.map fun v ↦ v.constructLr true ii) = .ok (lrs, alloc) ∧
      countRotRegs f ii stages (vs.map fun v ↦ v.constructLr true ii) =
        .ok (counted, available) ∧
      alloc .integer ≤ counted .integer ∧ RotAssigned f ii stages vs lrs alloc start := by
  have hcountable := countable_constructLr hii hsched hwide
  have hinteger : ∀ lr ∈ vs.map fun v ↦ v.constructLr true ii, lr.operand.ctype = .integer := by
    intro lr hlr
    obtain ⟨v, hv, rfl⟩ := List.mem_map.1 hlr
    rw [(tracks_constructLr v true ii).describes.operand_eq]
    exact hctype v hv
  obtain ⟨opArray, rem, hfill, hfilled⟩ := fillOpArray_eq hii hcountable
    (k := 0) (fun j lr hj ↦ by rw [Nat.zero_add, List.getElem?_map, hj, Option.map_some])
    (pool_replicate (8 * ii).toNat) (by rw [List.length_replicate]; omega) (by simp)
  obtain ⟨s, start, hrun, halloc⟩ :=
    (allocated_of_filled hfilled (f.initNext stages)).run hii
      (waiting_of_countable hcountable) (card_lt_of_filled hfilled)
  have hnext := countNext_eq ii hinteger (f.initNext stages)
  have hbase : f.initNext stages .integer = f.base .integer := by simp [RotFile.initNext]
  let next := fun c ↦ f.initNext stages c + needSum ii (vs.map fun v ↦ v.constructLr true ii) c
  refine ⟨s.lrs, fun c ↦ s.next c - f.base c, fun c ↦ next c - f.base c, rotAvailable f next, start,
    ?_, ?_, ?_, ?_⟩
  · rw [associateRotRegs, hfill, Run.ok_bind]
    dsimp only
    rw [hrun, Run.ok_bind]
  · rw [countRotRegs, hfill, Run.ok_bind]
    dsimp only
    rw [hnext, Run.ok_bind]
  · have hle := halloc.count .integer
    rw [Finset.sum_empty] at hle
    show s.next .integer - f.base .integer ≤ f.initNext stages .integer +
      needSum ii (vs.map fun v ↦ v.constructLr true ii) .integer - f.base .integer
    omega
  · exact halloc.rotAssigned hii hctype hsched hbase

end Allocation

/-! ### Reads -/

/-- A variant that needs no rotating register keeps its own, and its value is read before the next
iteration writes it. -/
structure KeepsRegister (ii : ℤ) (v : Variant) (lr : LRInfo) : Prop where
  dest : rregDest ii lr 0 = .ok v.operand
  src : ∀ u ∈ v.uses, rregSrc ii lr (v.useLifetime true ii u) = .ok v.operand
  not_before : ∀ u ∈ v.uses, ∀ i j, i < j → ¬Before (v.defAt ii j) (v.readAt ii i u)

/-- Every use reads the physical register that the definition wrote, after that. -/
structure ReadsOwn (base size ii : ℤ) (v : Variant) (lr : LRInfo) (name : Operand) : Prop where
  dest : rregDest ii lr 0 = .ok name
  src : ∀ u ∈ v.uses, ∃ name', rregSrc ii lr (v.useLifetime true ii u) = .ok name' ∧
    ∀ i, Before (v.defAt ii i) (v.readAt ii i u) ∧
      physReg base size name' ((v.readAt ii i u).1 / ii) =
        physReg base size name ((v.defAt ii i).1 / ii)

/-- All accesses of one value come before all of the other. -/
def Separate (ii : ℤ) (v : Variant) (i : ℤ) (w : Variant) (j : ℤ) : Prop :=
  (∀ p ∈ v.accessesOf ii i, ∀ q ∈ w.accessesOf ii j, Before p q) ∨
    ∀ p ∈ v.accessesOf ii i, ∀ q ∈ w.accessesOf ii j, Before q p

section Reads

variable {v : Variant} {u : Use} {ii stages st base size : ℤ}

/-- A live range that needs no name keeps its register. -/
theorem keepsRegister_of_le (hsched : v.RotScheduled stages ii) (hii : 1 ≤ ii)
    (hle : rotNeeded ii (v.constructLr true ii) ≤ 0) :
    KeepsRegister ii v (rotCounted ii (v.constructLr true ii)) := by
  have htrack := tracks_constructLr v true ii
  obtain ⟨-, -, hdiv, -⟩ := hsched.last_spec hii htrack
  have hstatic : (rotCounted ii (v.constructLr true ii)).numNames ≤ 1 := hle.trans zero_le_one
  have hshort : (v.constructLr true ii).lifetime ≤ ii ∧
      (v.constructLr true ii).useAfterDefSlot = false := by
    rw [rotNeeded, htrack.describes.time_eq] at hle
    split_ifs at hle with hcond
    · simp only [Bool.and_eq_true, decide_eq_true_eq, Bool.not_eq_true'] at hcond
      exact hcond.1
    · omega
  refine ⟨?_, fun u hu ↦ ?_, fun u hu i j hij ↦ ?_⟩
  · rw [rregDest, if_pos hstatic]
    exact congrArg _ htrack.describes.operand_eq
  · rw [rregSrc, if_pos hstatic]
    exact congrArg _ htrack.describes.operand_eq
  · obtain ⟨hlife, hafter⟩ := hshort
    have hlast := htrack.last.le _ (useLifetime_mem_accesses hu)
    have heq := htrack.lifetime_eq
    have hslot : (v.constructLr true ii).lifetime = ii →
        (v.constructLr true ii).lastAccessSlot ≤ v.defSlot := by
      intro hfull
      by_contra hlt
      have := htrack.after_iff.2 ⟨by rw [hfull, Int.tmod_self], not_le.1 hlt⟩
      rw [hafter] at this
      exact absurd this Bool.false_ne_true
    have hmul : (i + 1) * ii ≤ j * ii := mul_le_mul_of_nonneg_right (by omega) (by omega)
    rw [add_mul, one_mul] at hmul
    simp only [Before, Variant.defAt, Variant.readAt] at *
    omega

/-- A use reads after its definition. -/
theorem Variant.RotScheduled.before_readAt (hsched : v.RotScheduled stages ii) (hu : u ∈ v.uses)
    (i : ℤ) : Before (v.defAt ii i) (v.readAt ii i u) := by
  have hb := hsched.before u hu
  rw [Variant.readAt, Variant.useLifetime, mul_comm ii u.omega]
  simp only [Before, Variant.defAt, Use.issuedAt, zero_mul, add_zero] at *
  split_ifs <;> omega

/-- The name of a rotating variant's definition, in the run from `st` on. -/
def rotName (v : Variant) (st : ℤ) : Operand :=
  ⟨st, v.operand.ctype⟩

/-- A live range with names reads its own value in every pass. -/
theorem readsOwn_of_pos (hsched : v.RotScheduled stages ii) (hii : 1 ≤ ii)
    (hpos : 0 < rotNeeded ii (v.constructLr true ii)) :
    ReadsOwn base size ii v (rotNamed st (rotCounted ii (v.constructLr true ii)))
      (rotName v st) := by
  have htrack := tracks_constructLr v true ii
  have hwait := waiting_rotCounted hsched hii hpos
  have htime : (rotCounted ii (v.constructLr true ii)).firstDefTime = v.defTime :=
    htrack.describes.time_eq
  have hctype : (rotCounted ii (v.constructLr true ii)).operand.ctype = v.operand.ctype :=
    congrArg Operand.ctype htrack.describes.operand_eq
  obtain ⟨-, -, hdiv, -⟩ := hsched.last_spec hii htrack
  refine ⟨?_, fun u hu ↦ ?_⟩
  · have hname := (hwait.rreg_eq st hii le_rfl (by rw [add_zero, htime]; exact hdiv)).1
    rw [add_zero, sub_self, add_zero, hctype] at hname
    exact hname
  · have hlast := htrack.last.le _ (useLifetime_mem_accesses hu)
    have hle : (v.defTime + v.useLifetime true ii u) / ii ≤
        (v.constructLr true ii).lastAccessTime / ii := by
      refine Int.ediv_le_ediv (by omega) ?_
      simp only [Before] at hlast
      omega
    refine ⟨_, (hwait.rreg_eq st hii (hsched.useLifetime_nonneg hu) (htime ▸ hle)).2, fun i ↦ ?_⟩
    refine ⟨hsched.before_readAt hu i, ?_⟩
    rw [physReg, physReg, Variant.readAt, Variant.defAt, htime,
      Int.add_mul_ediv_right _ _ (show ii ≠ 0 by omega),
      Int.add_mul_ediv_right _ _ (show ii ≠ 0 by omega), rotName]
    congr 1
    ring

/-- If the names of two copies are one physical register, the copies share it. -/
theorem samePhys_of_physReg_eq {w : Variant} {start : ℕ → ℤ} {k m : ℕ} {i j : ℤ} (hii : 1 ≤ ii)
    (h : physReg base size (rotName v (start k)) ((v.defAt ii i).1 / ii) =
      physReg base size (rotName w (start m)) ((w.defAt ii j).1 / ii)) :
    SamePhys ii size start k (rotCounted ii (v.constructLr true ii)) i m
      (rotCounted ii (w.constructLr true ii)) j := by
  rw [← startAt_rotCounted, ← startAt_rotCounted, startAt_pass hii, startAt_pass hii] at h
  rw [SamePhys]
  have hsub := Int.dvd_of_emod_eq_zero (Int.emod_eq_emod_iff_emod_sub_eq_zero.1 h)
  simp only [rotName] at hsub
  convert hsub using 1
  ring

/-- Which of the two a live range is shows in its number of names. -/
theorem RotAssigned.cases {f : RotFile} {vs : List Variant} {lrs : List LRInfo}
    {alloc : Ctype → ℤ} {start : ℕ → ℤ} (h : RotAssigned f ii stages vs lrs alloc start) {k : ℕ}
    {lr : LRInfo} (hk : vs[k]? = some v) (hlr : lrs[k]? = some lr) :
    (lr.numNames ≤ 1 ∧ rotNeeded ii (v.constructLr true ii) ≤ 0 ∧
        lr = rotCounted ii (v.constructLr true ii)) ∨
      (1 < lr.numNames ∧ 0 < rotNeeded ii (v.constructLr true ii) ∧
        lr = rotNamed (start k) (rotCounted ii (v.constructLr true ii))) := by
  rcases le_or_gt (rotNeeded ii (v.constructLr true ii)) 0 with hle | hpos
  · obtain rfl := Option.some.inj (hlr.symm.trans (h.static k v hk hle))
    exact Or.inl ⟨hle.trans zero_le_one, hle, rfl⟩
  · obtain rfl := Option.some.inj (hlr.symm.trans (h.rotating k v hk hpos))
    exact Or.inr ⟨Int.lt_add_of_pos_left 1 hpos, hpos, rfl⟩

end Reads

/-- What renaming with the live ranges `lrs` guarantees, on a machine with at least `regs` rotating
registers: every name is found, a use reads the physical register of its own definition, and values
in one physical register do not interleave. -/
structure RotCorrect (base regs ii : ℤ) (vs : List Variant) (lrs : List LRInfo) : Prop where
  length_eq : lrs.length = vs.length
  keeps : ∀ (k : ℕ) (v : Variant) (lr : LRInfo), vs[k]? = some v → lrs[k]? = some lr →
    lr.numNames ≤ 1 → KeepsRegister ii v lr
  reads : ∀ (k : ℕ) (v : Variant) (lr : LRInfo) (size : ℤ), vs[k]? = some v →
    lrs[k]? = some lr → 1 < lr.numNames → 1 ≤ size → regs ≤ size →
    ∃ name, ReadsOwn base size ii v lr name
  separate : ∀ (k m : ℕ) (v w : Variant) (lr lr' : LRInfo) (name name' : Operand) (size i j : ℤ),
    vs[k]? = some v → vs[m]? = some w → lrs[k]? = some lr → lrs[m]? = some lr' →
    1 < lr.numNames → 1 < lr'.numNames → rregDest ii lr 0 = .ok name →
    rregDest ii lr' 0 = .ok name' → (k, i) ≠ (m, j) → 1 ≤ size → regs ≤ size →
    physReg base size name ((v.defAt ii i).1 / ii) =
      physReg base size name' ((w.defAt ii j).1 / ii) →
    Separate ii v i w j

/-- Allocating rotating registers for integer variants: counting and allocating both return, what is
allocated is at most what was counted, and the renamed kernel is correct. -/
theorem rotRegs_correct (f : RotFile) {ii stages : ℤ} (hii : 1 ≤ ii) {vs : List Variant}
    (hctype : ∀ v ∈ vs, v.operand.ctype = .integer)
    (hsched : ∀ v ∈ vs, v.RotScheduled stages ii)
    (hwide : ∀ v ∈ vs, v.isMacro = true → rotNeeded ii (v.constructLr true ii) ≤ 1) :
    ∃ lrs alloc counted available,
      associateRotRegs f ii stages (vs.map fun v ↦ v.constructLr true ii) = .ok (lrs, alloc) ∧
      countRotRegs f ii stages (vs.map fun v ↦ v.constructLr true ii) =
        .ok (counted, available) ∧
      alloc .integer ≤ counted .integer ∧
      RotCorrect (f.base .integer) (alloc .integer) ii vs lrs := by
  obtain ⟨lrs, alloc, counted, available, start, hrun, hcount, hle, hassigned⟩ :=
    rotAssigned_associateRotRegs f hii hctype hsched hwide
  refine ⟨lrs, alloc, counted, available, hrun, hcount, hle, hassigned.length_eq, ?_, ?_, ?_⟩
  · intro k v lr hk hlr hone
    rcases hassigned.cases hk hlr with ⟨-, hneeded, rfl⟩ | ⟨hmany, -, -⟩
    · exact keepsRegister_of_le (hsched v (List.mem_of_getElem? hk)) hii hneeded
    · exact absurd hone (not_le.2 hmany)
  · intro k v lr size hk hlr hmany hsize halloc
    rcases hassigned.cases hk hlr with ⟨hone, -, -⟩ | ⟨-, hneeded, rfl⟩
    · exact absurd hone (not_le.2 hmany)
    · exact ⟨_, readsOwn_of_pos (hsched v (List.mem_of_getElem? hk)) hii hneeded⟩
  · intro k m v w lr lr' name name' size i j hk hm hlr hlr' hmany hmany' hname hname' hne hsize
      halloc hphys
    have hv := hsched v (List.mem_of_getElem? hk)
    have hw := hsched w (List.mem_of_getElem? hm)
    rcases hassigned.cases hk hlr with ⟨hone, -, -⟩ | ⟨-, hneeded, rfl⟩
    · exact absurd hone (not_le.2 hmany)
    rcases hassigned.cases hm hlr' with ⟨hone, -, -⟩ | ⟨-, hneeded', rfl⟩
    · exact absurd hone (not_le.2 hmany')
    have hown : ReadsOwn (f.base .integer) size ii v _ (rotName v (start k)) :=
      readsOwn_of_pos hv hii hneeded
    have hown' : ReadsOwn (f.base .integer) size ii w _ (rotName w (start m)) :=
      readsOwn_of_pos hw hii hneeded'
    obtain rfl : rotName v (start k) = name := Except.ok.inj (hown.dest.symm.trans hname)
    obtain rfl : rotName w (start m) = name' := Except.ok.inj (hown'.dest.symm.trans hname')
    have hsame := samePhys_of_physReg_eq hii hphys
    rcases hassigned.last_before k m v w i j size hk hm hneeded hneeded' hne hsize halloc hsame with
      hlast | hlast
    · exact Or.inl (before_of_lastAt_before (tracks_constructLr v true ii) hw hlast)
    · exact Or.inr fun p hp q hq ↦
        before_of_lastAt_before (tracks_constructLr w true ii) hv hlast q hq p hp

/-- Two variants, of which the second starts in the slot after the last use of the first and takes
over its last register, and one that needs no rotating register. -/
def chained : List Variant :=
  [⟨1, ⟨4, .integer⟩, true, false, 0, 0, [⟨3, 1, 0, false⟩]⟩,
    ⟨2, ⟨5, .integer⟩, true, false, 3, 2, [⟨4, 0, 1, false⟩, ⟨5, 7, 0, true⟩]⟩,
    ⟨3, ⟨6, .integer⟩, true, false, 2, 0, [⟨3, 0, 0, false⟩]⟩]

/-- The rotating registers from 32 on, 96 of each kind. -/
def rotFile : RotFile :=
  ⟨fun _ ↦ 32, fun _ ↦ 96, false⟩

/-- The second of three variants takes over a register of the first. -/
theorem rotRegs_correct_chained :
    ∃ lrs alloc counted available,
      associateRotRegs rotFile 2 3 (chained.map fun v ↦ v.constructLr true 2) =
        .ok (lrs, alloc) ∧
      countRotRegs rotFile 2 3 (chained.map fun v ↦ v.constructLr true 2) =
        .ok (counted, available) ∧
      alloc .integer ≤ counted .integer ∧ RotCorrect 32 (alloc .integer) 2 chained lrs := by
  refine rotRegs_correct rotFile (by decide) (by decide) (fun v hv ↦ ?_) (by decide)
  simp only [chained, List.mem_cons, List.not_mem_nil, or_false] at hv
  obtain rfl | rfl | rfl := hv
  · exact ⟨⟨by decide, by decide, by decide, by decide, by decide, by decide⟩,
      by decide, by decide, by decide⟩
  · exact ⟨⟨by decide, by decide, by decide, by decide, by decide, by decide⟩,
      by decide, by decide, by decide⟩
  · exact ⟨⟨by decide, by decide, by decide, by decide, by decide, by decide⟩,
      by decide, by decide, by decide⟩

end OpenImpact.Softpipe
