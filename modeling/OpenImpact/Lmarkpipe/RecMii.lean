import OpenImpact.Lmarkpipe.MiiCorrect

/-!
# When the recurrence bound is right

`Lpipe_build_MinDist` finds a positive cycle, and a greatest total, if the table can hold it
(`isMinDist_iff`). So `Lpipe_determine_rec_mii` returns the least feasible interval if at each interval
below it some positive cycle can be held. Both also need every `int` on the way to fit
(`buildMinDist_returns_iff`, `searchMii_returns_iff`): `minDist_recMii_iff` has the two together, as exact
conditions on the dependences and the interval. Operations with ignored dependences are left out, for which
the code punts.
-/

namespace OpenImpact.Lmarkpipe

open Foundation Sm

variable {cb : Cb} {opArray : List ℕ} {ii : ℤ}

/-- Some cycle has a positive total that the table can hold. -/
def HeldCycle (cb : Cb) (opArray : List ℕ) (ii : ℤ) : Prop :=
  ∃ i t, Held cb opArray ii opArray.length i i t ∧ 0 < t

theorem HeldCycle.positiveCycle (h : HeldCycle cb opArray ii) : PositiveCycle cb opArray ii := by
  obtain ⟨i, t, ht, hpos⟩ := h
  exact ⟨i, t, ht.total, hpos⟩

/-- The table holds what it is built for: with a positive cycle one such cycle, and else the greatest
totals that are not `NEGATIVE_INFINITY`. -/
structure TotalsHeld (cb : Cb) (opArray : List ℕ) (ii : ℤ) : Prop where
  cycle : PositiveCycle cb opArray ii → HeldCycle cb opArray ii
  greatest : ¬PositiveCycle cb opArray ii → ∀ i j t,
    IsGreatest {t | Total (DepEdge cb opArray ii) i j t} t →
      t = negativeInfinity ∨ Held cb opArray ii opArray.length i j t

/-! ### One interval -/

theorem IsHeld.total_iff {i j : ℕ} {v t : ℤ} (h : IsHeld cb opArray ii opArray.length i j v)
    (ht : IsGreatest {t | Total (DepEdge cb opArray ii) i j t} t) :
    v = t ↔ t = negativeInfinity ∨ Held cb opArray ii opArray.length i j t := by
  constructor
  · rintro rfl
    exact h.1
  · rintro (rfl | hheld)
    · -- nothing below `NEGATIVE_INFINITY` is held
      refine h.1.resolve_right fun hv ↦ ?_
      exact absurd (ht.2 hv.total) (not_le.2 hv.keeps)
    · obtain rfl | hv := h.1
      · exact absurd (h.le_of_held hheld) (not_le.2 hheld.keeps)
      · exact le_antisymm (ht.2 hv.total) (h.le_of_held hheld)

theorem buildMinDist_fst_eq_one {r : ℤ × MinDist} (hrun : buildMinDist cb opArray ii = .ok r) :
    r.1 = 1 ↔ HeldCycle cb opArray ii := by
  obtain ⟨hzero, htable⟩ | ⟨hone, hcycle⟩ := (buildMinDist_spec hrun).2
  · refine ⟨fun h ↦ absurd (hzero.symm.trans h) (by decide), fun ⟨i, t, ht, hpos⟩ ↦ ?_⟩
    obtain ⟨hi, -⟩ := ht.total.range depEdge_range
    have := (htable.held i hi i hi).le_of_held ht
    have := htable.diag i hi
    omega
  · exact ⟨fun _ ↦ hcycle, fun _ ↦ hone⟩

/-- **`Lpipe_build_MinDist` is right** exactly if the table holds what it is built for. -/
theorem isMinDist_iff {r : ℤ × MinDist} (hrun : buildMinDist cb opArray ii = .ok r) :
    IsMinDist cb opArray ii r ↔ TotalsHeld cb opArray ii := by
  have hret := buildMinDist_fst_eq_one hrun
  have hzero : r.1 = 0 ↔ ¬HeldCycle cb opArray ii := by
    rw [← hret]
    obtain ⟨h, -⟩ | ⟨h, -⟩ := (buildMinDist_spec hrun).2 <;> simp [h]
  have hheld (h : r.1 = 0) : TableAt cb opArray ii opArray.length r.2 :=
    (buildMinDist_spec hrun).2.elim And.right fun h' ↦ absurd (h.symm.trans h'.1) (by decide)
  constructor
  · intro hdist
    refine ⟨fun hcycle ↦ hret.1 (hdist.ret.2 hcycle), fun hcycle i j t ht ↦ ?_⟩
    have h0 : r.1 = 0 := hzero.2 fun h ↦ hcycle h.positiveCycle
    obtain ⟨hi, hj⟩ := ht.1.range depEdge_range
    exact (((hheld h0).held i hi j hj).total_iff ht).1
      ((hdist.greatest h0 i j ⟨t, ht.1⟩).unique ht)
  · intro htotals
    have hcycle (h : r.1 = 0) : ¬PositiveCycle cb opArray ii := fun h' ↦ hzero.1 h (htotals.cycle h')
    refine ⟨⟨fun h ↦ (hret.1 h).positiveCycle, fun h ↦ hret.2 (htotals.cycle h)⟩, ?_, ?_⟩
    · rintro h0 i j ⟨t, ht⟩
      have hle : ∀ i t, Total (DepEdge cb opArray ii) i i t → t ≤ 0 :=
        fun i t ht ↦ not_lt.1 fun hpos ↦ hcycle h0 ⟨i, t, ht, hpos⟩
      obtain ⟨g, hg, -⟩ := exists_isGreatest_total hle depEdge_range finite_depEdge ht
      obtain ⟨hi, hj⟩ := hg.1.range depEdge_range
      rwa [(((hheld h0).held i hi j hj).total_iff hg).2 (htotals.greatest (hcycle h0) i j g hg)]
    · intro h0 i hi j hj hnone
      exact ((hheld h0).held i hi j hj).1.resolve_right fun h ↦ hnone ⟨_, h.total⟩

/-! ### The search -/

/-- One interval more: it is the result, or has a cycle that is held. -/
theorem searchMii_succ {n : ℕ} {minII r : ℤ} (hrun : searchMii cb opArray (n + 1) minII = .ok r) :
    DistancesFit cb opArray minII ∧ (r = minII ∧ ¬HeldCycle cb opArray minII ∨
      HeldCycle cb opArray minII ∧ FitsInt (minII + 1) ∧ searchMii cb opArray n (minII + 1) = .ok r) := by
  rw [searchMii] at hrun
  obtain ⟨⟨ret, md⟩, hbuild, hrun⟩ := Run.bind_eq_ok.1 hrun
  have hret : ret = 1 ↔ HeldCycle cb opArray minII := buildMinDist_fst_eq_one hbuild
  obtain ⟨hfit, hzero⟩ := buildMinDist_spec hbuild
  refine ⟨hfit, ?_⟩
  dsimp only at hrun hzero
  split_ifs at hrun with h0
  · refine .inl ⟨(Except.ok.inj hrun).symm, fun h ↦ ?_⟩
    exact absurd (h0.symm.trans (hret.2 h)) (by decide)
  · obtain ⟨next, hnext, hrun⟩ := Run.bind_eq_ok.1 hrun
    obtain ⟨hfits, rfl⟩ := int32_eq_ok.1 hnext
    exact .inr ⟨hret.1 (hzero.elim (fun h ↦ absurd h.1 h0) And.left), hfits, hrun⟩

/-- The search stops at the first interval with no positive cycle that is held, or at the last one. -/
theorem searchMii_spec {n : ℕ} {minII r : ℤ} (hrun : searchMii cb opArray n minII = .ok r) :
    minII ≤ r ∧ r ≤ minII + n ∧ (∀ ii, minII ≤ ii → ii < r → HeldCycle cb opArray ii) ∧
      (r < minII + n → ¬HeldCycle cb opArray r) := by
  induction n generalizing minII with
  | zero =>
    obtain rfl := Except.ok.inj hrun
    exact ⟨le_rfl, by omega, fun ii h h' ↦ absurd h' (by omega), fun h ↦ absurd h (by omega)⟩
  | succ n ih =>
    obtain ⟨-, ⟨rfl, hnot⟩ | ⟨hcycle, -, hrest⟩⟩ := searchMii_succ hrun
    · exact ⟨le_rfl, by omega, fun ii h h' ↦ absurd h' (by omega), fun _ ↦ hnot⟩
    · obtain ⟨hge, hle, hheld, hnot⟩ := ih hrest
      refine ⟨by omega, by push_cast; omega, fun ii hii hlt ↦ ?_, fun hlt ↦ hnot ?_⟩
      · rcases hii.eq_or_lt with rfl | hii
        · exact hcycle
        · exact hheld ii hii hlt
      · push_cast at hlt
        omega

/-- At each interval that the search comes to, every `int` fits, and so does the next interval when the search
goes on. -/
def SearchFits (cb : Cb) (opArray : List ℕ) (minII maxMinII : ℤ) : Prop :=
  ∀ ii, minII ≤ ii → ii ≤ maxMinII → (∀ ii', minII ≤ ii' → ii' < ii → HeldCycle cb opArray ii') →
    DistancesFit cb opArray ii ∧ (HeldCycle cb opArray ii → FitsInt (ii + 1))

theorem searchMii_returns_iff (hignore : ∀ o ∈ opArray, (cb.oper o).ignore = false) (n : ℕ) {minII : ℤ}
    (hii : 1 ≤ minII) : (∃ r, searchMii cb opArray n minII = .ok r) ↔
      SearchFits cb opArray minII (minII + n - 1) := by
  induction n generalizing minII with
  | zero => exact iff_of_true ⟨minII, rfl⟩ fun ii h h' ↦ by omega
  | succ n ih =>
    have hlast : minII + 1 + n - 1 = minII + (n + 1 : ℕ) - 1 := by
      push_cast
      omega
    constructor
    · rintro ⟨r, hrun⟩ ii hge hle hheld
      obtain ⟨hfit, ⟨rfl, hnot⟩ | ⟨hcycle, hfits, hrest⟩⟩ := searchMii_succ hrun
      · rcases hge.eq_or_lt with rfl | hlt
        · exact ⟨hfit, fun h ↦ absurd h hnot⟩
        · exact absurd (hheld r le_rfl hlt) hnot
      · rcases hge.eq_or_lt with rfl | hlt
        · exact ⟨hfit, fun _ ↦ hfits⟩
        · exact (ih (by omega)).1 ⟨r, hrest⟩ ii hlt (hlast ▸ hle) fun ii' h ↦ hheld ii' (by omega)
    · intro h
      obtain ⟨hfit, hfits⟩ := h minII le_rfl (by push_cast; omega) fun ii' h h' ↦ absurd h' (by omega)
      obtain ⟨⟨ret, md⟩, hbuild⟩ := (buildMinDist_returns_iff hignore (by omega)).2 hfit
      have hret : ret = 1 ↔ HeldCycle cb opArray minII := buildMinDist_fst_eq_one hbuild
      rw [searchMii, hbuild, Run.ok_bind]
      dsimp only
      split_ifs with h0
      · exact ⟨minII, rfl⟩
      · have hcycle := hret.1 ((buildMinDist_spec hbuild).2.elim (fun h ↦ absurd h.1 h0) And.left)
        rw [int32_eq (hfits hcycle), Run.ok_bind]
        refine (ih (by omega)).2 fun ii hge hle hheld ↦ h ii (by omega) (hlast ▸ hle) fun ii' hge' hlt ↦ ?_
        rcases hge'.eq_or_lt with rfl | hlt'
        · exact hcycle
        · exact hheld ii' hlt' hlt

/-- At the first interval at which the search could go wrong a positive cycle is held. -/
def CyclesHeldUpTo (cb : Cb) (opArray : List ℕ) (maxMinII : ℤ) : Prop :=
  ∀ ii, 1 ≤ ii → ii ≤ maxMinII → (∀ ii', 1 ≤ ii' → ii' < ii → PositiveCycle cb opArray ii') →
    PositiveCycle cb opArray ii → HeldCycle cb opArray ii

/-- **`Lpipe_determine_rec_mii` is right** exactly if no infeasible interval is the first at which the
table holds no positive cycle. -/
theorem isRecMii_iff {maxMinII r : ℤ} (hrun : determineRecMii cb opArray 1 maxMinII = .ok r) :
    IsRecMii cb opArray maxMinII r ↔ CyclesHeldUpTo cb opArray maxMinII := by
  rw [determineRecMii, if_neg (by decide)] at hrun
  obtain ⟨m, hsearch, hrun⟩ := Run.bind_eq_ok.1 hrun
  obtain ⟨hge, hle, hheld, hnot⟩ := searchMii_spec hsearch
  obtain rfl := Except.ok.inj hrun
  split_ifs with hgt
  · -- a positive cycle is held at every interval
    have hall : ∀ ii, 1 ≤ ii → ii ≤ maxMinII → HeldCycle cb opArray ii :=
      fun ii h h' ↦ hheld ii h (by omega)
    exact ⟨fun _ ii h h' _ _ ↦ hall ii h h', fun _ ↦
      .inr ⟨rfl, fun ii h h' ↦ (hall ii h h').positiveCycle⟩⟩
  · have hlt : m < 1 + ((maxMinII + 1 - 1).toNat : ℤ) := by omega
    constructor
    · intro hrec ii hii hiimax hbelow hcycle
      refine hheld ii hii ?_
      obtain hleast | ⟨rfl, -⟩ := hrec
      · -- the result is feasible, so it is not below `ii`
        refine lt_of_le_of_ne (not_lt.1 fun h ↦ hleast.1.2.2 (hbelow m hge h)) ?_
        rintro rfl
        exact hleast.1.2.2 hcycle
      · omega
    · intro h
      refine .inl ⟨⟨hge, by omega, fun hcycle ↦ ?_⟩, fun ii ⟨hii, hiimax, hfeasible⟩ ↦ ?_⟩
      · exact hnot hlt (h m hge (by omega) (fun ii' h₁ h₂ ↦ (hheld ii' h₁ h₂).positiveCycle) hcycle)
      · exact not_lt.1 fun hlt' ↦ hfeasible (hheld ii hii hlt').positiveCycle

/-- **The recurrence bound.** Each call returns and is right exactly if every `int` fits and the table holds
the totals that decide. -/
theorem minDist_recMii_iff {maxMinII : ℤ} (hignore : ∀ o ∈ opArray, (cb.oper o).ignore = false)
    (hii : 1 ≤ ii) :
    ((∃ r, buildMinDist cb opArray ii = .ok r ∧ IsMinDist cb opArray ii r) ↔
      DistancesFit cb opArray ii ∧ TotalsHeld cb opArray ii) ∧
      ((∃ r, determineRecMii cb opArray 1 maxMinII = .ok r ∧ IsRecMii cb opArray maxMinII r) ↔
        SearchFits cb opArray 1 maxMinII ∧ CyclesHeldUpTo cb opArray maxMinII) := by
  constructor
  · rw [← buildMinDist_returns_iff hignore (by omega)]
    constructor
    · rintro ⟨r, hrun, hdist⟩
      exact ⟨⟨r, hrun⟩, (isMinDist_iff hrun).1 hdist⟩
    · rintro ⟨⟨r, hrun⟩, htotals⟩
      exact ⟨r, hrun, (isMinDist_iff hrun).2 htotals⟩
  · have hreturns : (∃ r, determineRecMii cb opArray 1 maxMinII = .ok r) ↔
        SearchFits cb opArray 1 maxMinII := by
      have hsame : SearchFits cb opArray 1 (1 + (maxMinII + 1 - 1).toNat - 1) ↔
          SearchFits cb opArray 1 maxMinII := by
        refine forall₂_congr fun ii hge ↦ imp_congr_left ?_
        omega
      rw [← hsame, ← searchMii_returns_iff hignore _ le_rfl, determineRecMii, if_neg (by decide)]
      constructor
      · rintro ⟨r, hrun⟩
        obtain ⟨m, hm, -⟩ := Run.bind_eq_ok.1 hrun
        exact ⟨m, hm⟩
      · rintro ⟨m, hm⟩
        exact ⟨_, by rw [hm]; rfl⟩
    rw [← hreturns]
    constructor
    · rintro ⟨r, hrun, hrec⟩
      exact ⟨⟨r, hrun⟩, (isRecMii_iff hrun).1 hrec⟩
    · rintro ⟨⟨r, hrun⟩, hcycles⟩
      exact ⟨r, hrun, (isRecMii_iff hrun).2 hcycles⟩

/-! ### A dependence that is not seen -/

/-- Three operations in a ring: the second needs the first's result of the iteration before, and each other
one the result before it after 25000 cycles. -/
def distantCb : Cb where
  ii := 1
  moduloResources := true
  testOnlyOneAlt := false
  slackLoadsForMiss := false
  dep k := if k = 0 then ⟨0, 1, 0, 1, false, true, true, false⟩
    else if k = 1 then ⟨1, 2, 25000, 0, false, true, true, false⟩
    else ⟨2, 0, 25000, 0, false, true, true, false⟩
  oper i := ⟨[⟨[], [i]⟩], false, none, false⟩

theorem minDist_recMii_iff_distant :
    ((∃ r, buildMinDist distantCb [0, 1, 2] 30000 = .ok r ∧ IsMinDist distantCb [0, 1, 2] 30000 r) ↔
      DistancesFit distantCb [0, 1, 2] 30000 ∧ TotalsHeld distantCb [0, 1, 2] 30000) ∧
      ((∃ r, determineRecMii distantCb [0, 1, 2] 1 50000 = .ok r ∧ IsRecMii distantCb [0, 1, 2] 50000 r) ↔
        SearchFits distantCb [0, 1, 2] 1 50000 ∧ CyclesHeldUpTo distantCb [0, 1, 2] 50000) :=
  minDist_recMii_iff (fun _ _ ↦ rfl) (by decide)

/-- At an interval of 40000 the cycle's total is 10000, but the first dependence's is -40000. -/
theorem not_isMinDist_distant : ∃ r, buildMinDist distantCb [0, 1, 2] 40000 = .ok r ∧
    r.1 = 0 ∧ PositiveCycle distantCb [0, 1, 2] 40000 ∧ ¬IsMinDist distantCb [0, 1, 2] 40000 r := by
  have hrun : Prod.fst <$> buildMinDist distantCb [0, 1, 2] 40000 = .ok 0 := by decide +kernel
  obtain ⟨r, hr, h0⟩ := Run.map_eq_ok.1 hrun
  have h₁ : DepEdge distantCb [0, 1, 2] 40000 0 1 (-40000) :=
    ⟨by decide, by decide, _, List.mem_singleton_self _, 0, by decide, rfl, rfl, rfl⟩
  have h₂ : DepEdge distantCb [0, 1, 2] 40000 1 2 25000 :=
    ⟨by decide, by decide, _, List.mem_singleton_self _, 1, by decide, rfl, rfl, rfl⟩
  have h₃ : DepEdge distantCb [0, 1, 2] 40000 2 0 25000 :=
    ⟨by decide, by decide, _, List.mem_singleton_self _, 2, by decide, rfl, rfl, rfl⟩
  have hcycle : PositiveCycle distantCb [0, 1, 2] 40000 :=
    ⟨0, 10000, .cons h₁ (.cons h₂ (.edge h₃)), by decide⟩
  exact ⟨r, hr, h0, hcycle, fun h ↦ absurd (h0.symm.trans (h.ret.2 hcycle)) (by decide)⟩

end OpenImpact.Lmarkpipe
