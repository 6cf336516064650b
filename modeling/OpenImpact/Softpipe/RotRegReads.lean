import OpenImpact.Softpipe.RotRegAlloc
import Mathlib.Tactic.Ring

/-!
# Rotating registers hold their values

The name of a register shifts by one whenever the kernel starts over, so a name of one iteration is
a physical register. A use reads the physical register of its definition, and values in one physical
register are accessed one after the other (`rotRegs_correct`).
-/

namespace OpenImpact.Softpipe

/-! ### Variants in rotating registers -/

/-- The cycles and slots of a kernel with rotating registers. The names of a variant fit into the
`stages + 2` places the code allocates for them. -/
structure Variant.RotScheduled (v : Variant) (stages ii : ℤ) : Prop extends
    v.Scheduled stages ii where
  defSlot : 0 ≤ v.defSlot ∧ v.defSlot < 8
  sinkSlot : ∀ u ∈ v.uses, 0 ≤ u.sinkSlot ∧ u.sinkSlot < 8
  fits : ∀ u ∈ v.uses, (v.defTime + v.useLifetime true ii u) / ii ≤ v.defTime / ii + stages

/-- The names fit when a dependence spans at most one iteration and the loop-back branch, in the
last cycle at the latest, depends on its own iteration. -/
theorem fits_of_omega_le {v : Variant} {u : Use} {stages ii : ℤ} (hii : 1 ≤ ii)
    (h : v.Scheduled stages ii) (hu : u ∈ v.uses) (homega : u.omega ≤ 1)
    (hexit : u.exit = true → u.omega = 0) :
    (v.defTime + v.useLifetime true ii u) / ii ≤ v.defTime / ii + stages := by
  have hdef := Int.ediv_nonneg h.def_nonneg (show 0 ≤ ii by omega)
  have hsink := h.sink_lt u hu
  have hlt : v.defTime + v.useLifetime true ii u < (stages + 1) * ii := by
    rw [Variant.useLifetime, add_mul, one_mul]
    cases he : u.exit with
    | true =>
      rw [hexit he]
      simp only [Bool.and_self, if_true, mul_zero]
      omega
    | false =>
      have hmul : ii * u.omega ≤ ii * 1 := mul_le_mul_of_nonneg_left homega (by omega)
      simp only [Bool.false_and, Bool.false_eq_true, if_false]
      omega
  have hdiv := Int.ediv_lt_of_lt_mul (show 0 < ii by omega) hlt
  omega

/-- The number of rotating registers of a live range. -/
def rotNeeded (ii : ℤ) (lr : LRInfo) : ℤ :=
  if decide (lr.lifetime ≤ ii) && !lr.useAfterDefSlot &&
    decide (lr.operand.ctype ≠ .predicate) then 0
  else lr.lastAccessTime / ii - lr.firstDefTime / ii + 1

/-- A live range with the number of rotating registers it needs. -/
def rotCounted (ii : ℤ) (lr : LRInfo) : LRInfo :=
  { lr with numNames := rotNeeded ii lr }

section Variants

variable {v : Variant} {u : Use} {ii stages : ℤ} {lr : LRInfo}

theorem Variant.RotScheduled.useLifetime_nonneg (h : v.RotScheduled stages ii) (hu : u ∈ v.uses) :
    0 ≤ v.useLifetime true ii u := by
  have hb := h.before u hu
  rw [Variant.useLifetime, mul_comm]
  simp only [Before, Variant.defAt, Use.issuedAt, zero_mul, add_zero] at hb
  split_ifs <;> omega

theorem Variant.RotScheduled.one_le_stages (h : v.RotScheduled stages ii) (hii : 1 ≤ ii) :
    1 ≤ stages := by
  by_contra hlt
  have hmul : stages * ii ≤ 0 := mul_nonpos_of_nonpos_of_nonneg (by omega) (by omega)
  have hdef := h.def_nonneg
  have hdef' := h.def_lt
  omega

/-- What the last access has from the accesses. -/
theorem Variant.RotScheduled.last_spec (h : v.RotScheduled stages ii) (hii : 1 ≤ ii)
    (htrack : Tracks v ii (v.accesses true ii) lr) :
    v.defTime ≤ lr.lastAccessTime ∧ (0 ≤ lr.lastAccessSlot ∧ lr.lastAccessSlot < 8) ∧
      v.defTime / ii ≤ lr.lastAccessTime / ii ∧
      lr.lastAccessTime / ii ≤ v.defTime / ii + stages := by
  have hone := h.one_le_stages hii
  rcases htrack.last.mem with hmem | ⟨u, hu, hmem⟩
  · obtain ⟨htime, hslot⟩ := Prod.mk.inj hmem
    rw [htime, hslot]
    exact ⟨le_rfl, h.defSlot, le_rfl, by omega⟩
  · obtain ⟨htime, hslot⟩ := Prod.mk.inj hmem
    have hnonneg := h.useLifetime_nonneg hu
    rw [htime, hslot]
    exact ⟨by omega, h.sinkSlot u hu, Int.ediv_le_ediv (by omega) (by omega), h.fits u hu⟩

theorem rotNeeded_nonneg (h : v.RotScheduled stages ii) (hii : 1 ≤ ii) :
    0 ≤ rotNeeded ii (v.constructLr true ii) := by
  have htrack := tracks_constructLr v true ii
  obtain ⟨-, -, hle, -⟩ := h.last_spec hii htrack
  rw [rotNeeded, htrack.describes.time_eq]
  split_ifs <;> omega

/-- The code's count of names. -/
theorem rotNumNames_eq (h : v.RotScheduled stages ii) (hii : 1 ≤ ii)
    (hwide : v.isMacro = true → rotNeeded ii (v.constructLr true ii) ≤ 1) :
    rotNumNames ii (v.constructLr true ii) = .ok (rotNeeded ii (v.constructLr true ii)) := by
  have htrack := tracks_constructLr v true ii
  obtain ⟨hle, -, hdiv, -⟩ := h.last_spec hii htrack
  have hdef := h.def_nonneg
  have hcount : (if (v.constructLr true ii).lifetime = 0 then 1 else
      (v.constructLr true ii).lastAccessTime.tdiv ii -
        (v.constructLr true ii).firstDefTime.tdiv ii + 1) =
      (v.constructLr true ii).lastAccessTime / ii - (v.constructLr true ii).firstDefTime / ii + 1 := by
    rw [htrack.describes.time_eq, Int.tdiv_eq_ediv_of_nonneg (by omega),
      Int.tdiv_eq_ediv_of_nonneg hdef]
    split_ifs with hzero
    · rw [htrack.lifetime_eq] at hzero
      rw [show (v.constructLr true ii).lastAccessTime = v.defTime by omega]
      omega
    · rfl
  have hpos : ¬(v.constructLr true ii).lastAccessTime / ii -
      (v.constructLr true ii).firstDefTime / ii + 1 ≤ 0 := by
    rw [htrack.describes.time_eq]
    omega
  simp only [rotNumNames, htrack.describes.liveIn_eq, Bool.false_and, Bool.false_eq_true, if_false,
    hcount]
  rw [if_neg hpos, htrack.describes.isMacro_eq, ← rotNeeded]
  refine if_neg fun hmac ↦ ?_
  rw [Bool.and_eq_true, decide_eq_true_eq] at hmac
  have := hwide hmac.1
  omega

theorem waiting_rotCounted (h : v.RotScheduled stages ii) (hii : 1 ≤ ii)
    (hpos : 0 < rotNeeded ii (v.constructLr true ii)) :
    Waiting ii stages (rotCounted ii (v.constructLr true ii)) := by
  have htrack := tracks_constructLr v true ii
  obtain ⟨hle, hslot, hdiv, hfits⟩ := h.last_spec hii htrack
  have hneeded : rotNeeded ii (v.constructLr true ii) =
      (v.constructLr true ii).lastAccessTime / ii -
        (v.constructLr true ii).firstDefTime / ii + 1 := by
    rw [rotNeeded] at hpos ⊢
    split_ifs at hpos ⊢ with hstatic
    · omega
    · rfl
  have htime := htrack.describes.time_eq
  have hslot' := htrack.describes.slot_eq
  exact {
    pos := hpos
    numNames_eq := hneeded
    le := by
      show rotNeeded ii (v.constructLr true ii) ≤ stages + 1
      rw [hneeded, htime]
      omega
    liveIn_eq := htrack.describes.liveIn_eq
    def_nonneg := htime.symm ▸ h.def_nonneg
    defSlot := hslot'.symm ▸ h.defSlot
    lastSlot := hslot
    ordered := by
      show ¬Before ((v.constructLr true ii).lastAccessTime, (v.constructLr true ii).lastAccessSlot)
        ((v.constructLr true ii).firstDefTime, (v.constructLr true ii).firstDefSlot)
      rw [htime, hslot']
      exact htrack.last.le _ (Or.inl rfl) }

end Variants

/-! ### Counting and filling -/

/-- A counted list: the code's count gives `rotNeeded`, and what needs registers can wait. -/
structure Countable (ii stages : ℤ) (lrs : List LRInfo) : Prop where
  run : ∀ lr ∈ lrs, rotNumNames ii lr = .ok (rotNeeded ii lr)
  nonneg : ∀ lr ∈ lrs, 0 ≤ rotNeeded ii lr
  waiting : ∀ lr ∈ lrs, 0 < rotNeeded ii lr → Waiting ii stages (rotCounted ii lr)

/-- The names of kind `c` that a list needs. -/
def needSum (ii : ℤ) (lrs : List LRInfo) (c : Ctype) : ℤ :=
  (lrs.map fun lr ↦ if lr.operand.ctype = c then rotNeeded ii lr else 0).sum

section Fill

variable {ii stages : ℤ} {l0 lrs : List LRInfo} {lr : LRInfo} {opArray : List (List ℕ)}
  {rem : Finset ℕ} {k : ℕ}

theorem insertLr_eq (hii : 1 ≤ ii) (hw : Waiting ii stages lr) (hget : l0[k]? = some lr) :
    insertLr ii opArray lr k = .ok (opArray.modify (posOf ii l0 k) (· ++ [k])) := by
  have hbounds := hw.defPos_bounds hii
  rw [insertLr, if_pos hw.pos, hw.opArrayIndex_eq, if_neg (by omega), posOf, hget, Option.map_some,
    Option.getD_some]

/-- The buckets after the first loop hold `rem`, before which they held `rem₀`, and what the list
needs. -/
structure Filled (ii : ℤ) (l0 lrs : List LRInfo) (k : ℕ) (rem₀ : Finset ℕ)
    (opArray : List (List ℕ)) (rem : Finset ℕ) : Prop where
  pool : Pool (posOf ii l0) opArray rem
  mem_imp : ∀ l ∈ rem, l ∈ rem₀ ∨ ∃ lr, l0[l]? = some lr ∧ 0 < lr.numNames
  subset : rem₀ ⊆ rem
  mem : ∀ (j : ℕ) (lr : LRInfo), lrs[j]? = some lr → 0 < rotNeeded ii lr → k + j ∈ rem
  sum_eq : ∀ c, ∑ l ∈ rem, need l0 c l = ∑ l ∈ rem₀, need l0 c l + needSum ii lrs c

theorem fillOpArray_eq (hii : 1 ≤ ii) (hlrs : Countable ii stages lrs)
    (hget : ∀ (j : ℕ) (lr : LRInfo), lrs[j]? = some lr → l0[k + j]? = some (rotCounted ii lr))
    (hpool : Pool (posOf ii l0) opArray rem) (hlen : (opArray.length : ℤ) = 8 * ii)
    (hrem : ∀ l ∈ rem, l < k) :
    ∃ opArray' rem', fillOpArray ii k lrs opArray = .ok (lrs.map (rotCounted ii), opArray') ∧
      Filled ii l0 lrs k rem opArray' rem' := by
  induction lrs generalizing k opArray rem with
  | nil =>
    exact ⟨opArray, rem, rfl, hpool, fun l hl ↦ Or.inl hl, subset_rfl, by simp,
      by simp [needSum]⟩
  | cons lr lrs ih =>
    have hrest : Countable ii stages lrs :=
      ⟨fun l hl ↦ hlrs.run l (List.mem_cons_of_mem lr hl),
        fun l hl ↦ hlrs.nonneg l (List.mem_cons_of_mem lr hl),
        fun l hl ↦ hlrs.waiting l (List.mem_cons_of_mem lr hl)⟩
    have hk : l0[k]? = some (rotCounted ii lr) := hget 0 lr rfl
    have hget' : ∀ (j : ℕ) (l : LRInfo), lrs[j]? = some l →
        l0[k + 1 + j]? = some (rotCounted ii l) := by
      intro j l hl
      rw [show k + 1 + j = k + (j + 1) by omega]
      exact hget (j + 1) l hl
    have hneed : ∀ c, need l0 c k = if lr.operand.ctype = c then rotNeeded ii lr else 0 := by
      intro c
      rw [need, hk, Option.map_some, Option.getD_some]
      rfl
    have hsum : ∀ c, needSum ii (lr :: lrs) c = need l0 c k + needSum ii lrs c := by
      intro c
      rw [needSum, List.map_cons, List.sum_cons, hneed, needSum]
    -- a live range without names is counted and left out of the array
    by_cases hpos : 0 < rotNeeded ii lr
    · have hw := hlrs.waiting lr List.mem_cons_self hpos
      have hnot : k ∉ rem := fun hmem ↦ (hrem k hmem).false
      have hbounds := hw.defPos_bounds hii
      have hposOf : posOf ii l0 k < opArray.length := by
        rw [posOf, hk, Option.map_some, Option.getD_some]
        omega
      obtain ⟨opArray', rem', hrun, hfilled⟩ := ih hrest hget' (hpool.insert hnot hposOf)
        (by rw [List.length_modify, hlen]) (by
          intro l hl
          rcases Finset.mem_insert.1 hl with rfl | hl
          · omega
          · have := hrem l hl
            omega)
      refine ⟨opArray', rem', ?_, hfilled.pool, ?_, ?_, ?_, ?_⟩
      · rw [fillOpArray, hlrs.run lr List.mem_cons_self, Run.ok_bind]
        rw [show ({ lr with numNames := rotNeeded ii lr } : LRInfo) = rotCounted ii lr from rfl,
          insertLr_eq hii hw hk, Run.ok_bind, hrun, Run.ok_bind]
        rfl
      · intro l hl
        rcases hfilled.mem_imp l hl with hl | hl
        · rcases Finset.mem_insert.1 hl with rfl | hl
          · exact Or.inr ⟨rotCounted ii lr, hk, hpos⟩
          · exact Or.inl hl
        · exact Or.inr hl
      · exact fun l hl ↦ hfilled.subset (Finset.mem_insert_of_mem hl)
      · intro j l hl hl'
        cases j with
        | zero => exact hfilled.subset (Finset.mem_insert_self k rem)
        | succ j =>
          rw [show k + (j + 1) = k + 1 + j by omega]
          exact hfilled.mem j l hl hl'
      · intro c
        rw [hfilled.sum_eq c, Finset.sum_insert hnot, hsum c]
        omega
    · have hzero : rotNeeded ii lr = 0 := by
        have := hlrs.nonneg lr List.mem_cons_self
        omega
      obtain ⟨opArray', rem', hrun, hfilled⟩ := ih hrest hget' hpool hlen
        (fun l hl ↦ (hrem l hl).trans (Nat.lt_succ_self k))
      refine ⟨opArray', rem', ?_, hfilled.pool, hfilled.mem_imp, hfilled.subset, ?_, ?_⟩
      · rw [fillOpArray, hlrs.run lr List.mem_cons_self, Run.ok_bind, insertLr, if_neg hpos,
          Run.ok_bind, hrun, Run.ok_bind]
        rfl
      · intro j l hl hl'
        cases j with
        | zero =>
          obtain rfl : lr = l := by simpa using hl
          exact absurd hl' hpos
        | succ j =>
          rw [show k + (j + 1) = k + 1 + j by omega]
          exact hfilled.mem j l hl hl'
      · intro c
        rw [hfilled.sum_eq c, hsum c, hneed c, hzero, ite_self]
        omega

theorem countNext_eq (ii : ℤ) (hint : ∀ lr ∈ lrs, lr.operand.ctype = .integer) (next : Ctype → ℤ) :
    countNext (lrs.map (rotCounted ii)) next = .ok fun c ↦ next c + needSum ii lrs c := by
  induction lrs generalizing next with
  | nil => simp [countNext, needSum]
  | cons lr lrs ih =>
    have hctype : (rotCounted ii lr).operand.ctype = .integer := hint lr List.mem_cons_self
    rw [List.map_cons, countNext, hctype, if_neg (by decide),
      ih fun l hl ↦ hint l (List.mem_cons_of_mem lr hl)]
    congr 1
    funext c
    have hsum : needSum ii (lr :: lrs) c =
        (if lr.operand.ctype = c then rotNeeded ii lr else 0) + needSum ii lrs c := by
      rw [needSum, List.map_cons, List.sum_cons, needSum]
    rw [hsum, hint lr List.mem_cons_self]
    by_cases hc : c = .integer
    · subst hc
      rw [Function.update_self, if_pos rfl]
      simp only [rotCounted]
      omega
    · rw [Function.update_of_ne hc, if_neg (Ne.symm hc)]
      omega

end Fill

/-! ### Physical registers -/

/-- The physical register that `op` names once the kernel started over `pass` times, out of `size`
rotating ones. -/
def physReg (base size : ℤ) (op : Operand) (pass : ℤ) : ℤ :=
  (op.r - base - pass) % size

/-- Where a use reads the value of iteration `i`. -/
def Variant.readAt (v : Variant) (ii i : ℤ) (u : Use) : ℤ × ℤ :=
  (v.defTime + v.useLifetime true ii u + i * ii, u.sinkSlot)

/-- A use, the one of the loop-back branch apart, reads in its own cycle. -/
theorem readAt_eq_issuedAt {v : Variant} {u : Use} (hexit : u.exit = false) (ii i : ℤ) :
    v.readAt ii i u = u.issuedAt ii (i + u.omega) := by
  rw [Variant.readAt, Use.issuedAt, Variant.useLifetime, hexit, Bool.false_and,
    if_neg Bool.false_ne_true]
  congr 1
  ring

/-- The definition of the value of iteration `i` and its reads. -/
def Variant.accessesOf (v : Variant) (ii i : ℤ) : Set (ℤ × ℤ) :=
  {p | p = v.defAt ii i ∨ ∃ u ∈ v.uses, p = v.readAt ii i u}

section Physical

variable {v w : Variant} {u : Use} {ii stages lifetime : ℤ} {l lr : LRInfo} {p q : ℤ × ℤ}

theorem regsFrom_get (c : Ctype) (start : ℤ) {j n : ℕ} (hj : j < n) :
    (regsFrom c start n)[j]? = some ⟨start + j, c⟩ := by
  rw [regsFrom, List.getElem?_map, List.getElem?_range hj, Option.map_some]

/-- The name at a distance from the definition within the live range. -/
theorem Waiting.findName_eq (h : Waiting ii stages l) (st : ℤ) (hii : 1 ≤ ii) (hlife : 0 ≤ lifetime)
    (hle : (l.firstDefTime + lifetime) / ii ≤ l.lastAccessTime / ii) :
    ∃ nameIndex, findName ii (rotNamed st l) lifetime = .ok nameIndex ∧
      (rotNamed st l).names[nameIndex.toNat]? =
        some ⟨st + ((l.firstDefTime + lifetime) / ii - l.firstDefTime / ii),
          l.operand.ctype⟩ := by
  have hdef := h.def_nonneg
  have hnum := h.numNames_eq
  have hmono : l.firstDefTime / ii ≤ (l.firstDefTime + lifetime) / ii :=
    Int.ediv_le_ediv (by omega) (by omega)
  refine ⟨(l.firstDefTime + lifetime) / ii - l.firstDefTime / ii + 1, ?_, ?_⟩
  · have hindex : ¬((l.firstDefTime + lifetime) / ii - l.firstDefTime / ii + 1 < 1 ∨
        (l.firstDefTime + lifetime) / ii - l.firstDefTime / ii + 1 ≥ l.numNames + 1) := by omega
    simp only [findName, rotNamed, h.liveIn_eq, Bool.false_and, Bool.false_eq_true, if_false,
      Int.tdiv_eq_ediv_of_nonneg hdef,
      Int.tdiv_eq_ediv_of_nonneg (show 0 ≤ l.firstDefTime + lifetime by omega)]
    exact if_neg hindex
  · obtain ⟨j, hj⟩ : ∃ j : ℕ,
        (l.firstDefTime + lifetime) / ii - l.firstDefTime / ii = (j : ℤ) :=
      ⟨((l.firstDefTime + lifetime) / ii - l.firstDefTime / ii).toNat, by omega⟩
    rw [hj, show ((j : ℤ) + 1).toNat = j + 1 by omega, rotNamed, List.getElem?_cons_succ,
      regsFrom_get _ _ (by omega)]

theorem Waiting.rreg_eq (h : Waiting ii stages l) (st : ℤ) (hii : 1 ≤ ii) (hlife : 0 ≤ lifetime)
    (hle : (l.firstDefTime + lifetime) / ii ≤ l.lastAccessTime / ii) :
    rregDest ii (rotNamed st l) lifetime =
        .ok ⟨st + ((l.firstDefTime + lifetime) / ii - l.firstDefTime / ii), l.operand.ctype⟩ ∧
      rregSrc ii (rotNamed st l) lifetime =
        .ok ⟨st + ((l.firstDefTime + lifetime) / ii - l.firstDefTime / ii), l.operand.ctype⟩ := by
  obtain ⟨nameIndex, hname, hget⟩ := h.findName_eq st hii hlife hle
  have hmany : ¬(rotNamed st l).numNames ≤ 1 := by
    have := h.pos
    show ¬l.numNames + 1 ≤ 1
    omega
  rw [rregDest, if_neg hmany, hname, Run.ok_bind, hget, rregSrc, if_neg hmany,
    if_neg (by omega), hname, Run.ok_bind, hget]
  exact ⟨rfl, rfl⟩

theorem before_of_ediv_lt (hii : 1 ≤ ii) (h : p.1 / ii < q.1 / ii) : Before p q := by
  refine Or.inl ?_
  by_contra hle
  have := Int.ediv_le_ediv (show 0 < ii by omega) (not_lt.1 hle)
  omega

/-- In one pass of the kernel. -/
theorem before_of_pos_lt (ii : ℤ) (h : p.1 / ii = q.1 / ii)
    (hp : 0 ≤ p.2 ∧ p.2 < 8) (hq : 0 ≤ q.2 ∧ q.2 < 8)
    (hlt : 8 * (p.1 % ii) + p.2 < 8 * (q.1 % ii) + q.2) : Before p q := by
  have hp' := Int.mul_ediv_add_emod p.1 ii
  have hq' := Int.mul_ediv_add_emod q.1 ii
  rw [h] at hp'
  simp only [Before]
  omega

/-- Where the value of iteration `i` is accessed for the last time. -/
def lastAt (ii i : ℤ) (lr : LRInfo) : ℤ × ℤ :=
  (lr.lastAccessTime + i * ii, lr.lastAccessSlot)

theorem Variant.RotScheduled.not_before_defAt (h : v.RotScheduled stages ii) {i : ℤ}
    (hp : p ∈ v.accessesOf ii i) : ¬Before p (v.defAt ii i) := by
  rcases hp with rfl | ⟨u, hu, rfl⟩
  · simp [Before]
  · have hnonneg := h.useLifetime_nonneg hu
    have hb := h.before u hu
    rw [Variant.readAt, Variant.useLifetime] at *
    simp only [Before, Variant.defAt, Use.issuedAt, zero_mul, add_zero] at *
    rw [mul_comm ii u.omega]
    split_ifs <;> omega

theorem not_lastAt_before (htrack : Tracks v ii (v.accesses true ii) lr) {i : ℤ}
    (hp : p ∈ v.accessesOf ii i) : ¬Before (lastAt ii i lr) p := by
  have hshift : ∀ q ∈ v.accesses true ii, ¬Before (lastAt ii i lr) (q.1 + i * ii, q.2) := by
    intro q hq
    have hlast := htrack.last.le q hq
    simp only [Before, lastAt] at *
    omega
  rcases hp with rfl | ⟨u, hu, rfl⟩
  · exact hshift _ (Or.inl rfl)
  · exact hshift _ (useLifetime_mem_accesses hu)

/-- Values whose last access comes before the other's definition do not interleave. -/
theorem before_of_lastAt_before (htrack : Tracks v ii (v.accesses true ii) lr)
    (hw : w.RotScheduled stages ii) {i j : ℤ} (h : Before (lastAt ii i lr) (w.defAt ii j)) :
    ∀ p ∈ v.accessesOf ii i, ∀ q ∈ w.accessesOf ii j, Before p q := by
  intro p hp q hq
  have hp' := not_lastAt_before htrack hp
  have hq' := hw.not_before_defAt hq
  simp only [Before] at *
  omega

end Physical

end OpenImpact.Softpipe
