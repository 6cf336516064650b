import OpenImpact.Softpipe.Mve

/-!
# Every use reads its definition

The copy of a use and its lifetime determine the copy of its definition, so both get the same name.
That name is written again only by every `numNames`-th later iteration, whose definition comes after
the last use.

`mve_reads` is for every loop that is scheduled at some interval and every set of variants, and
rests on `Assigned`, what the assignment of names leaves. Cycles and numbers of names are integers
of any size: a schedule starts below `LARGE_NUMBER` times the interval, and a register's omega is at
most one, so that no sum here comes near the ends of `int`. The code before and after the kernel is
left out.
-/

namespace OpenImpact.Softpipe

/-! ### Stages -/

/-- The quotient of a difference, with the carry. -/
theorem sub_ediv_add {a b n : ℤ} (hn : 0 < n) :
    (a - b) / n + (if a % n < b % n then 1 else 0) = a / n - b / n := by
  have ha := Int.mul_ediv_add_emod a n
  have hb := Int.mul_ediv_add_emod b n
  have ha0 := Int.emod_nonneg a hn.ne'
  have hb0 := Int.emod_nonneg b hn.ne'
  have ha1 := Int.emod_lt_of_pos a hn
  have hb1 := Int.emod_lt_of_pos b hn
  have hsub : a - b = (a % n - b % n) + n * (a / n - b / n) := by
    rw [mul_sub]
    omega
  rw [hsub, Int.add_mul_ediv_left _ _ hn.ne']
  split_ifs with hlt
  · rw [Int.ediv_eq_neg_one_of_neg_of_le (by omega) (by omega)]
    omega
  · rw [Int.ediv_eq_zero_of_lt (by omega) (by omega)]
    omega

section Stages

variable {v : Variant} {u : Use} {ii stages : ℤ}

/-- The lifetime of a use. -/
theorem useLifetime_eq : v.useLifetime false ii u = u.sinkTime - v.defTime + ii * u.omega := by
  simp [Variant.useLifetime]

/-- The definition is before the use, that many iterations back. -/
theorem Variant.Scheduled.before_iter (h : v.Scheduled stages ii) (hu : u ∈ v.uses) (i : ℤ) :
    Before (v.defAt ii (i - u.omega)) (u.issuedAt ii i) := by
  have hb := h.before u hu
  simp only [Before, Variant.defAt, Use.issuedAt, zero_mul, add_zero, sub_mul] at *
  omega

/-- So its lifetime is not negative. -/
theorem Variant.Scheduled.useLifetime_nonneg (h : v.Scheduled stages ii) (hu : u ∈ v.uses) :
    0 ≤ v.useLifetime false ii u := by
  have hb := h.before u hu
  rw [useLifetime_eq, mul_comm]
  simp only [Before, Variant.defAt, Use.issuedAt, zero_mul, add_zero] at hb
  omega

/-- `stage_lifetime` is the number of stages from the definition to the use. -/
theorem Variant.Scheduled.stageLifetime_eq (h : v.Scheduled stages ii) (hii : 1 ≤ ii)
    (hu : u ∈ v.uses) :
    (v.useLifetime false ii u).tdiv ii +
        (if (v.mveInfo false ii u).stageLifetimeIncr then 1 else 0) =
      u.sinkTime / ii + u.omega - v.defTime / ii := by
  have hnonneg := h.useLifetime_nonneg hu
  rw [Int.tdiv_eq_ediv_of_nonneg hnonneg, Variant.mveInfo]
  simp only [ge_iff_le, hnonneg, if_true, decide_eq_true_eq,
    Int.tmod_eq_emod_of_nonneg (h.sink_nonneg u hu), Int.tmod_eq_emod_of_nonneg h.def_nonneg]
  have hstages := sub_ediv_add (a := u.sinkTime) (b := v.defTime) (show 0 < ii by omega)
  rw [useLifetime_eq, Int.add_mul_ediv_left _ _ (show ii ≠ 0 by omega)]
  omega

end Stages

/-! ### Copies and names -/

section Copies

variable {v : Variant} {u : Use} {ii stages unroll start base n : ℤ} {lr : LRInfo}

/-- A copy of the kernel is one of the unrolled ones. -/
theorem copyAt_bounds (ii start : ℤ) (hunroll : 0 < unroll) (time i : ℤ) :
    0 ≤ copyAt ii unroll start time i ∧ copyAt ii unroll start time i < unroll :=
  ⟨Int.emod_nonneg _ hunroll.ne', Int.emod_lt_of_pos _ hunroll⟩

/-- Enough names for a use are enough for its stages. -/
theorem stageLifetime_le (hii : 1 ≤ ii) (hn : v.useLifetime false ii u ≤ n * ii) :
    u.sinkTime / ii + u.omega - v.defTime / ii ≤ n := by
  have hS := Int.mul_ediv_add_emod u.sinkTime ii
  have hD := Int.mul_ediv_add_emod v.defTime ii
  have hS0 := Int.emod_nonneg u.sinkTime (show ii ≠ 0 by omega)
  have hD1 := Int.emod_lt_of_pos v.defTime (show 0 < ii by omega)
  rw [useLifetime_eq] at hn
  by_contra hlt
  have hmul : (n + 1) * ii ≤ (u.sinkTime / ii + u.omega - v.defTime / ii) * ii :=
    mul_le_mul_of_nonneg_right (by omega) (by omega)
  have hsub : (u.sinkTime / ii + u.omega - v.defTime / ii) * ii =
      ii * (u.sinkTime / ii) + ii * u.omega - ii * (v.defTime / ii) := by ring
  rw [add_mul, one_mul] at hmul
  omega

/-- The copy of the use leads to the copy of its definition. -/
theorem defCopy_eq (h : v.Scheduled stages ii) (hii : 1 ≤ ii) (hu : u ∈ v.uses)
    (hunroll : 0 < unroll) (hle : v.useLifetime false ii u ≤ unroll * ii) (i : ℤ) :
    defCopy ii unroll (copyAt ii unroll start u.sinkTime i) (v.mveInfo false ii u) =
      copyAt ii unroll start v.defTime (i - u.omega) := by
  have hstage := h.stageLifetime_eq hii hu
  have hstages := stageLifetime_le hii hle
  have hcopy := (copyAt_bounds ii start hunroll u.sinkTime i).1
  rw [defCopy, if_pos (show (v.mveInfo false ii u).lifetime ≥ 0 from h.useLifetime_nonneg hu)]
  rw [show (v.mveInfo false ii u).lifetime = v.useLifetime false ii u from rfl, hstage,
    Int.tmod_eq_emod_of_nonneg (by omega)]
  rw [copyAt, copyAt, Int.add_sub_assoc, Int.emod_add_emod]
  rw [show u.sinkTime / ii + i + start +
      (unroll - (u.sinkTime / ii + u.omega - v.defTime / ii)) =
    v.defTime / ii + (i - u.omega) + start + unroll by ring, Int.add_emod_right]

/-- The name of the version of iteration `i`. -/
theorem nameOf_eq (h : v.Scheduled stages ii) (hii : 1 ≤ ii) (htime : lr.firstDefTime = v.defTime)
    (hn : 1 ≤ n) (hunroll : 0 < unroll) (hdvd : n ∣ unroll) (i : ℤ) :
    nameOf ii stages (named lr base n) (copyAt ii unroll start v.defTime i) =
      .ok (nameAt lr base ((stages + i + start) % n)) := by
  have hcopy := (copyAt_bounds ii start hunroll v.defTime i).1
  have hstage : v.defTime / ii < stages :=
    Int.ediv_lt_of_lt_mul (by omega) h.def_lt
  have hindex : (stages - v.defTime / ii + copyAt ii unroll start v.defTime i).tmod n =
      (stages + i + start) % n := by
    rw [Int.tmod_eq_emod_of_nonneg (by omega), copyAt, Int.add_emod, Int.emod_emod_of_dvd _ hdvd,
      ← Int.add_emod]
    congr 1
    ring
  have htime' : (named lr base n).firstDefTime.tdiv ii = v.defTime / ii := by
    rw [show (named lr base n).firstDefTime = lr.firstDefTime from rfl, htime,
      Int.tdiv_eq_ediv_of_nonneg h.def_nonneg]
  rw [nameOf, htime', show (named lr base n).numNames = n from rfl]
  rw [hindex, if_pos (Int.emod_nonneg _ (by omega)),
    names_named (Int.emod_nonneg _ (by omega)) (Int.emod_lt_of_pos _ (by omega))]
  rfl

end Copies

/-! ### Reads -/

section Reads

variable {v w : Variant} {u : Use} {ii stages unroll start maxRegId n : ℤ} {lrs lrs' : List LRInfo}
  {lr : LRInfo} {base num : ℕ → ℤ}

/-- Two variants have no name in common. -/
theorem Named.nameAt_ne (h : Named unroll maxRegId lrs lrs' base num)
    (hops : (lrs.map LRInfo.operand).Nodup) (hmax : ∀ lr ∈ lrs, lr.operand.r ≤ maxRegId)
    {k k' : ℕ} {l l' : LRInfo} (hk : lrs[k]? = some l) (hk' : lrs[k']? = some l') (hlt : k < k')
    {j j' : ℤ} (hj : 0 ≤ j) (hjn : j < num k) (hj' : 0 ≤ j') :
    nameAt l (base k) j ≠ nameAt l' (base k') j' := by
  intro heq
  have hr := congrArg Operand.r heq
  have hbase := h.le_base k l hk
  have hbase' := h.le_base k' l' hk'
  have hbases := h.lt_base k k' l' hlt hk'
  have hl := hmax l (List.mem_of_getElem? hk)
  have hl' := hmax l' (List.mem_of_getElem? hk')
  by_cases h0 : j = 0 ∧ j' = 0
  · rw [h0.1, h0.2] at heq
    simp only [nameAt, if_true] at heq
    have hidx : (lrs.map LRInfo.operand)[k]? = (lrs.map LRInfo.operand)[k']? := by
      rw [List.getElem?_map, List.getElem?_map, hk, hk', Option.map_some, Option.map_some, heq]
    have hlen : k < (lrs.map LRInfo.operand).length := by
      rw [List.length_map]
      exact (List.getElem?_eq_some_iff.1 hk).1
    exact hlt.ne ((List.getElem?_inj hlen hops).1 hidx)
  · rw [nameAt_r, nameAt_r] at hr
    split_ifs at hr <;> omega

/-- A later definition of the same name comes after every use of the value. -/
theorem not_before_of_mul (hu : u ∈ v.uses) (hii : 1 ≤ ii)
    (htrack : Tracks v ii (v.accesses false ii) lr) (hone : 1 ≤ n)
    (hn : lr.lifetime ≤ n * ii ∧ (lr.lifetime = n * ii → lr.lastAccessSlot ≤ v.defSlot))
    {i i' : ℤ} (hne : i' ≠ i - u.omega) (hdvd : n ∣ i' - (i - u.omega)) :
    ¬(Before (v.defAt ii (i - u.omega)) (v.defAt ii i') ∧
      Before (v.defAt ii i') (u.issuedAt ii i)) := by
  rintro ⟨hafter, hbefore⟩
  obtain ⟨m, hm⟩ := hdvd
  have hlast := htrack.last.le _ (useLifetime_mem_accesses hu)
  have hlife := htrack.lifetime_eq
  obtain ⟨hle, hslot⟩ := hn
  have hi' : i' = i - u.omega + n * m := by omega
  subst hi'
  simp only [Before, Variant.defAt, Use.issuedAt, useLifetime_eq] at hafter hbefore hlast
  have hmul : (i - u.omega + n * m) * ii = i * ii - ii * u.omega + m * (n * ii) := by ring
  have hmul' : (i - u.omega) * ii = i * ii - ii * u.omega := by ring
  have hpos : 0 < n * ii := mul_pos (by omega) (by omega)
  rw [hmul, hmul'] at hafter
  rw [hmul] at hbefore
  -- The definition is later by at least `n * ii` cycles, the extent of all uses.
  have hm1 : 1 ≤ m := by
    by_contra hm0
    have hm0' : m * (n * ii) ≤ 0 := mul_nonpos_of_nonpos_of_nonneg (by omega) hpos.le
    rcases eq_or_ne m 0 with rfl | hmne
    · omega
    · have hneg : m * (n * ii) < 0 := mul_neg_of_neg_of_pos (by omega) hpos
      omega
  have hge : n * ii ≤ m * (n * ii) := le_mul_of_one_le_left hpos.le hm1
  omega

/-- The live range of a variant, counted and named. -/
def namedLr (ii : ℤ) (v : Variant) (base n : ℤ) : LRInfo :=
  named (counted ii (v.constructLr false ii)) base n

/-- How `Lpipe_associate_mve_regs` names the live ranges of the variants `vs`. -/
structure Assigned (ii unroll maxRegId : ℤ) (vs : List Variant) (lrs : List LRInfo)
    (base num : ℕ → ℤ) : Prop where
  named : Named unroll maxRegId (vs.map fun v ↦ counted ii (v.constructLr false ii)) lrs base num
  pos : ∀ v ∈ vs, 0 < unroll
  one_le : ∀ v ∈ vs, 1 ≤ namesNeeded ii (v.constructLr false ii)

/-- The registers that the code gives. -/
theorem assigned_associateMveRegs {vs : List Variant} (hii : 1 ≤ ii)
    (hreg : ∀ v ∈ vs, v.isRegister = true) (maxRegId : ℤ) :
    ∃ unroll lrs m base num,
      associateMveRegs ii (vs.map fun v ↦ v.constructLr false ii) maxRegId = .ok (unroll, lrs, m) ∧
      Assigned ii unroll maxRegId vs lrs base num := by
  have hone : ∀ v : Variant, 1 ≤ namesNeeded ii (v.constructLr false ii) :=
    fun v ↦ ((tracks_constructLr v false ii).le_namesNeeded hii (Or.inl rfl)).1
  obtain ⟨unroll, lrs, m, base, num, hrun, hunroll, hnamed⟩ :=
    associateMveRegs_eq ii (vs.map fun v ↦ v.constructLr false ii) (by
      intro lr hlr
      obtain ⟨v, hv, rfl⟩ := List.mem_map.1 hlr
      exact ⟨(tracks_constructLr v false ii).describes.isRegister_eq.trans (hreg v hv), hone v⟩)
      maxRegId
  rw [List.map_map] at hnamed
  exact ⟨unroll, lrs, m, base, num, hrun, hnamed,
    fun v hv ↦ hunroll _ (List.mem_map_of_mem hv), fun v _ ↦ hone v⟩

section Assigned

variable {vs : List Variant} {k : ℕ}

/-- The live range of a variant has its place in the list. -/
theorem counted_get (hk : vs[k]? = some v) :
    (vs.map fun v ↦ counted ii (v.constructLr false ii))[k]? =
      some (counted ii (v.constructLr false ii)) := by
  rw [List.getElem?_map, hk, Option.map_some]

/-- Counting the names keeps the operand. -/
theorem operand_counted (ii : ℤ) (v : Variant) :
    (counted ii (v.constructLr false ii)).operand = v.operand :=
  (tracks_constructLr v false ii).describes.operand_eq

/-- The live range of a variant is named from its base. -/
theorem Assigned.eq_namedLr (h : Assigned ii unroll maxRegId vs lrs base num)
    (hk : vs[k]? = some v) (hlr : lrs[k]? = some lr) : lr = namedLr ii v (base k) (num k) :=
  Option.some.inj (hlr.symm.trans (h.named.get k _ (counted_get hk)))

/-- Each has a name at least. -/
theorem Assigned.one_le_num (h : Assigned ii unroll maxRegId vs lrs base num)
    (hk : vs[k]? = some v) : 1 ≤ num k :=
  (h.one_le v (List.mem_of_getElem? hk)).trans (h.named.le_num k _ (counted_get hk))

/-- The names of a variant extend over its whole live range. -/
theorem Assigned.extent (h : Assigned ii unroll maxRegId vs lrs base num) (hii : 1 ≤ ii)
    (hk : vs[k]? = some v) :
    (v.constructLr false ii).lifetime ≤ num k * ii ∧
      ((v.constructLr false ii).lifetime = num k * ii →
        (v.constructLr false ii).lastAccessSlot ≤ v.defSlot) := by
  obtain ⟨-, hle, hslot⟩ := (tracks_constructLr v false ii).le_namesNeeded hii (Or.inl rfl)
  have hmul := mul_le_mul_of_nonneg_right (h.named.le_num k _ (counted_get hk))
    (show 0 ≤ ii by omega)
  exact ⟨hle.trans hmul, fun heq ↦ hslot (le_antisymm hle (heq ▸ hmul))⟩

/-- No use is further away than the unrolled kernel is long. -/
theorem Assigned.useLifetime_le (h : Assigned ii unroll maxRegId vs lrs base num) (hii : 1 ≤ ii)
    (hk : vs[k]? = some v) (hu : u ∈ v.uses) : v.useLifetime false ii u ≤ unroll * ii := by
  have hlast := (tracks_constructLr v false ii).last.le _ (useLifetime_mem_accesses hu)
  have hlife := (tracks_constructLr v false ii).lifetime_eq
  have hextent := (h.extent hii hk).1
  have hmul := mul_le_mul_of_nonneg_right
    (Int.le_of_dvd (h.pos v (List.mem_of_getElem? hk)) (h.named.dvd k _ (counted_get hk)))
    (show 0 ≤ ii by omega)
  simp only [Before] at hlast
  omega

/-- The index of the name that the definition of iteration `i` writes. -/
theorem Assigned.index (h : Assigned ii unroll maxRegId vs lrs base num) (hk : vs[k]? = some v)
    (i : ℤ) : 0 ≤ i % num k ∧ i % num k < num k := by
  have hone := h.one_le_num hk
  exact ⟨Int.emod_nonneg _ (by omega), Int.emod_lt_of_pos _ (by omega)⟩

/-- The name written in an iteration is the one of its number. -/
theorem Assigned.renameDest_eq (h : Assigned ii unroll maxRegId vs lrs base num) (hii : 1 ≤ ii)
    (hsched : v.Scheduled stages ii) (hk : vs[k]? = some v) (hlr : lrs[k]? = some lr)
    (start i : ℤ) :
    renameDest ii stages lr (copyAt ii unroll start v.defTime i) =
      .ok (nameAt (counted ii (v.constructLr false ii)) (base k)
        ((stages + i + start) % num k)) := by
  rw [h.eq_namedLr hk hlr]
  exact nameOf_eq hsched hii (tracks_constructLr v false ii).describes.time_eq (h.one_le_num hk)
    (h.pos v (List.mem_of_getElem? hk)) (h.named.dvd k _ (counted_get hk)) i

/-- A use reads the name that its definition wrote, that many iterations back. -/
theorem Assigned.renameSrc_eq (h : Assigned ii unroll maxRegId vs lrs base num) (hii : 1 ≤ ii)
    (hsched : v.Scheduled stages ii) (hk : vs[k]? = some v) (hu : u ∈ v.uses) (i : ℤ) :
    renameSrc ii stages unroll lr (v.mveInfo false ii u) (copyAt ii unroll start u.sinkTime i) =
      renameDest ii stages lr (copyAt ii unroll start v.defTime (i - u.omega)) := by
  rw [renameSrc, renameDest,
    defCopy_eq hsched hii hu (h.pos v (List.mem_of_getElem? hk)) (h.useLifetime_le hii hk hu) i]

/-- Definitions with the same name are of the same variant, whole multiples of its names apart. -/
theorem Assigned.eq_of_nameAt_eq (h : Assigned ii unroll maxRegId vs lrs base num)
    (hops : (vs.map Variant.operand).Nodup) (hmax : ∀ v ∈ vs, v.operand.r ≤ maxRegId)
    {k' : ℕ} (hk : vs[k]? = some v) (hk' : vs[k']? = some w) {i i' : ℤ}
    (heq : nameAt (counted ii (w.constructLr false ii)) (base k') (i' % num k') =
      nameAt (counted ii (v.constructLr false ii)) (base k) (i % num k)) :
    k' = k ∧ num k ∣ i' - i := by
  have hops' : ((vs.map fun v ↦ counted ii (v.constructLr false ii)).map
      LRInfo.operand).Nodup := by
    rw [List.map_map]
    exact (List.map_congr_left fun v _ ↦ (operand_counted ii v).symm) ▸ hops
  have hmax' : ∀ lr ∈ vs.map fun v ↦ counted ii (v.constructLr false ii),
      lr.operand.r ≤ maxRegId := by
    intro lr hlr
    obtain ⟨v, hv, rfl⟩ := List.mem_map.1 hlr
    exact operand_counted ii v ▸ hmax v hv
  rcases lt_trichotomy k k' with hlt | rfl | hlt
  · exact absurd heq.symm (h.named.nameAt_ne hops' hmax' (counted_get hk) (counted_get hk') hlt
      (h.index hk i).1 (h.index hk i).2 (h.index hk' i').1)
  · obtain rfl : v = w := Option.some.inj (hk.symm.trans hk')
    have hbase := (hmax' _ (List.mem_of_getElem? (counted_get hk))).trans
      (h.named.le_base k _ (counted_get hk))
    have hmod := nameAt_inj hbase (h.index hk i').1 (h.index hk i).1 heq
    exact ⟨rfl, Int.dvd_of_emod_eq_zero (Int.emod_eq_emod_iff_emod_sub_eq_zero.1 hmod)⟩
  · exact absurd heq (h.named.nameAt_ne hops' hmax' (counted_get hk') (counted_get hk) hlt
      (h.index hk' i').1 (h.index hk' i').2 (h.index hk i).1)

end Assigned

/-- No definition writes `name` after `p` and before `q`, that of variant `k` in iteration `i`
apart. -/
def Kept (ii stages unroll start : ℤ) (vs : List Variant) (lrs : List LRInfo) (name : Operand)
    (k : ℕ) (i : ℤ) (p q : ℤ × ℤ) : Prop :=
  ∀ (k' : ℕ) (w : Variant) (lr : LRInfo) (i' : ℤ), vs[k']? = some w → lrs[k']? = some lr →
    (k', i') ≠ (k, i) →
    renameDest ii stages lr (copyAt ii unroll start w.defTime i') = .ok name →
    ¬(Before p (w.defAt ii i') ∧ Before (w.defAt ii i') q)

/-- The unrolled kernel, its copies executed in turn from copy `start` on: every use of iteration
`i` reads the name that the definition of iteration `i - omega` writes, and no other definition
writes that name between the two. -/
theorem mve_reads {ii stages maxRegId : ℤ} (hii : 1 ≤ ii) {vs : List Variant}
    (hreg : ∀ v ∈ vs, v.isRegister = true) (hsched : ∀ v ∈ vs, v.Scheduled stages ii)
    (hops : (vs.map Variant.operand).Nodup) (hmax : ∀ v ∈ vs, v.operand.r ≤ maxRegId) :
    ∃ unroll lrs m,
      associateMveRegs ii (vs.map fun v ↦ v.constructLr false ii) maxRegId = .ok (unroll, lrs, m) ∧
      lrs.length = vs.length ∧
      ∀ (k : ℕ) (v : Variant) (lr : LRInfo), vs[k]? = some v → lrs[k]? = some lr →
        ∀ u ∈ v.uses, ∀ start i : ℤ,
          Before (v.defAt ii (i - u.omega)) (u.issuedAt ii i) ∧
          ∃ name,
            renameSrc ii stages unroll lr (v.mveInfo false ii u)
              (copyAt ii unroll start u.sinkTime i) = .ok name ∧
            renameDest ii stages lr (copyAt ii unroll start v.defTime (i - u.omega)) = .ok name ∧
            Kept ii stages unroll start vs lrs name k (i - u.omega)
              (v.defAt ii (i - u.omega)) (u.issuedAt ii i) := by
  obtain ⟨unroll, lrs, m, base, num, hrun, hassigned⟩ := assigned_associateMveRegs hii hreg maxRegId
  refine ⟨unroll, lrs, m, hrun, by rw [hassigned.named.length_eq, List.length_map], ?_⟩
  intro k v lr hk hlr u hu start i
  have hv := hsched v (List.mem_of_getElem? hk)
  have hdest := hassigned.renameDest_eq hii hv hk hlr start (i - u.omega)
  refine ⟨hv.before_iter hu i, _, (hassigned.renameSrc_eq hii hv hk hu i).trans hdest, hdest, ?_⟩
  intro k' w lr' i' hk' hlr' hne hname
  have hw := hsched w (List.mem_of_getElem? hk')
  rw [hassigned.renameDest_eq hii hw hk' hlr' start i'] at hname
  obtain ⟨rfl, hdvd⟩ := hassigned.eq_of_nameAt_eq hops hmax hk hk' (Except.ok.inj hname)
  obtain rfl : v = w := Option.some.inj (hk.symm.trans hk')
  refine not_before_of_mul hu hii (tracks_constructLr v false ii) (hassigned.one_le_num hk)
    (hassigned.extent hii hk) (by simpa using hne) ?_
  rwa [show stages + i' + start - (stages + (i - u.omega) + start) = i' - (i - u.omega) by ring]
    at hdvd

/-- A variant that is used an iteration later, before its definition, and one that is used in the
cycle and in a later slot than its definition, an iteration later. -/
def carried : List Variant :=
  [⟨1, ⟨4, .integer⟩, true, false, 3, 0, [⟨0, 1, 2, false⟩, ⟨4, 0, 0, false⟩]⟩,
    ⟨2, ⟨5, .float⟩, true, false, 2, 1, [⟨2, 3, 1, false⟩]⟩]

/-- Two variants that are used an iteration later or two. -/
theorem mve_reads_carried :
    ∃ unroll lrs m,
      associateMveRegs 2 (carried.map fun v ↦ v.constructLr false 2) 9 = .ok (unroll, lrs, m) ∧
      lrs.length = 2 ∧
      ∀ (k : ℕ) (v : Variant) (lr : LRInfo), carried[k]? = some v → lrs[k]? = some lr →
        ∀ u ∈ v.uses, ∀ start i : ℤ,
          Before (v.defAt 2 (i - u.omega)) (u.issuedAt 2 i) ∧
          ∃ name,
            renameSrc 2 3 unroll lr (v.mveInfo false 2 u)
              (copyAt 2 unroll start u.sinkTime i) = .ok name ∧
            renameDest 2 3 lr (copyAt 2 unroll start v.defTime (i - u.omega)) = .ok name ∧
            Kept 2 3 unroll start carried lrs name k (i - u.omega)
              (v.defAt 2 (i - u.omega)) (u.issuedAt 2 i) := by
  refine mve_reads (by decide) (by decide) (fun v hv ↦ ?_) (by decide) (by decide)
  simp only [carried, List.mem_cons, List.not_mem_nil, or_false] at hv
  obtain rfl | rfl := hv
  · exact ⟨by decide, by decide, by decide, by decide, by decide, by decide⟩
  · exact ⟨by decide, by decide, by decide, by decide, by decide, by decide⟩

end Reads

end OpenImpact.Softpipe
