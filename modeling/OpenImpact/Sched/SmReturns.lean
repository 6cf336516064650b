import OpenImpact.Foundation.Reach
import OpenImpact.Library.Yields
import OpenImpact.Sched.SmSched
import Mathlib.Data.List.Nodup
import Mathlib.Data.List.Perm.Basic

/-!
# Calls of the schedule manager that return

`SM_schedule_oper_no_bundling` of an operation that is not scheduled and `SM_unschedule_oper` of one
that is punt in no state that such calls reach: only an `int` can leave its range
(`Counted.scheduleOper`, `Counted.unscheduleOper`).

The functions test the count of unresolved dependences into an operation and its mark in the queue of
those that have none. `Counted` says that the count is the number of dependences whose source is not
scheduled. Within a call the dependences out of the operation that moves are counted one after the
other, so there the ones still to come make up the difference (`Resolving`, `Releasing`).
-/

namespace OpenImpact.Sm

variable {cb : Cb} {s s' : State} {k o : ℕ} {ks : List ℕ} {alts : ℕ → Option ℕ}

/-- The dependences into an operation. -/
def Cb.depsIn (cb : Cb) (o : ℕ) : List ℕ :=
  (cb.oper o).actions.flatMap RegAction.depIn

/-- The dependences out of an operation. -/
def Cb.depsOut (cb : Cb) (o : ℕ) : List ℕ :=
  (cb.oper o).actions.flatMap RegAction.depOut

/-- A dependence that has a part in the counts. -/
def Cb.counts (cb : Cb) (k : ℕ) : Bool :=
  (cb.dep k).hardDep && !(cb.dep k).ignore

/-- A dependence that has a part in the count of operation `o`. -/
def Cb.countsFor (cb : Cb) (o k : ℕ) : Bool :=
  cb.counts k && (cb.dep k).toOp == o

/-- An operation has each of its dependences in one list only, and there once. -/
structure Cb.Listed (cb : Cb) : Prop where
  nodup_depsIn : ∀ o, (cb.depsIn o).Nodup
  nodup_depsOut : ∀ o, (cb.depsOut o).Nodup

/-- The dependences into operation `o` whose sources are not scheduled. -/
def unresolved (cb : Cb) (s : State) (o : ℕ) : ℕ :=
  (cb.depsIn o).countP fun k ↦ cb.counts k && !(s (cb.dep k).fromOp).scheduled

/-- The counts and the marks of the queue are right, and a scheduled operation has its alternative. -/
structure Counted (cb : Cb) (s : State) : Prop where
  count : ∀ o, (s o).numUnresolvedHardDepIn = unresolved cb s o
  queued : ∀ o, (s o).inDepInResolved = true →
    (s o).scheduled = false ∧ (s o).numUnresolvedHardDepIn = 0
  altChosen : ∀ o, (s o).scheduled = true → (s o).altChosen ≠ none

/-! ### Changes of bounds -/

/-- Nothing but bounds and places differs. -/
structure BoundsOnly (s s' : State) : Prop where
  scheduled : ∀ o, (s' o).scheduled = (s o).scheduled
  altChosen : ∀ o, (s' o).altChosen = (s o).altChosen
  count : ∀ o, (s' o).numUnresolvedHardDepIn = (s o).numUnresolvedHardDepIn
  queued : ∀ o, (s' o).inDepInResolved = (s o).inDepInResolved

theorem BoundsOnly.refl (s : State) : BoundsOnly s s :=
  ⟨fun _ ↦ rfl, fun _ ↦ rfl, fun _ ↦ rfl, fun _ ↦ rfl⟩

theorem BoundsOnly.trans {s'' : State} (h : BoundsOnly s s') (h' : BoundsOnly s' s'') :
    BoundsOnly s s'' where
  scheduled o := (h'.scheduled o).trans (h.scheduled o)
  altChosen o := (h'.altChosen o).trans (h.altChosen o)
  count o := (h'.count o).trans (h.count o)
  queued o := (h'.queued o).trans (h.queued o)

/-- A change to one operation. -/
theorem boundsOnly_update {x : Oper} (hscheduled : x.scheduled = (s o).scheduled)
    (haltChosen : x.altChosen = (s o).altChosen)
    (hcount : x.numUnresolvedHardDepIn = (s o).numUnresolvedHardDepIn)
    (hqueued : x.inDepInResolved = (s o).inDepInResolved) :
    BoundsOnly s (Function.update s o x) := by
  constructor <;> intro o' <;> by_cases ho : o' = o
  all_goals first
    | rw [Function.update_of_ne ho]
    | subst ho; rw [Function.update_self]; assumption

/-- The counts depend on which operations are scheduled only. -/
theorem unresolved_congr (h : ∀ o, (s' o).scheduled = (s o).scheduled) (o : ℕ) :
    unresolved cb s' o = unresolved cb s o := by
  simp only [unresolved, h]

/-- The cycles that a dependence allows are sums. -/
theorem yields_upperResolved (cb : Cb) (s : State) (d : Dep) :
    (upperResolved cb s d).Yields fun _ ↦ True := by
  refine (Run.yields_int32 _).bind fun c _ _ ↦ ?_
  split_ifs
  · exact (Run.yields_int32 _).bind fun _ _ _ ↦ Run.yields_int32 _
  · exact .ok trivial

theorem yields_slackCycles (cb : Cb) (d : Dep) (c : ℤ) :
    (slackCycles cb d c).Yields fun _ ↦ True := by
  rw [slackCycles]
  split_ifs
  · split
    · exact (Run.yields_int32 _).bind fun _ _ _ ↦ Run.yields_int32 _
    · exact .ok trivial
  · exact .ok trivial

theorem yields_lowerResolved (cb : Cb) (s : State) (d : Dep) :
    (lowerResolved cb s d).Yields fun _ ↦ True := by
  refine (Run.yields_int32 _).bind fun c _ _ ↦ ?_
  split_ifs
  · exact (Run.yields_int32 _).bind fun _ _ _ ↦ (Run.yields_int32 _).bind fun _ _ _ ↦
      yields_slackCycles cb d _
  · exact yields_slackCycles cb d c

/-- The upper bound along a dependence is updated if its sink is scheduled. -/
theorem yields_updateUpperBounds (h : (s (cb.dep k).toOp).scheduled = true) :
    (updateUpperBounds cb s k).Yields (BoundsOnly s) := by
  rw [updateUpperBounds]
  simp only [h, Bool.not_true, Bool.false_eq_true, if_false]
  exact (yields_upperResolved cb s _).bind fun _ _ _ ↦ .ok (boundsOnly_update rfl rfl rfl rfl)

/-- The lower bound is if the source is. -/
theorem yields_updateLowerBounds (h : (s (cb.dep k).fromOp).scheduled = true) :
    (updateLowerBounds cb s k).Yields (BoundsOnly s) := by
  rw [updateLowerBounds]
  simp only [h, Bool.not_true, Bool.false_eq_true, if_false]
  exact (yields_lowerResolved cb s _).bind fun _ _ _ ↦ .ok (boundsOnly_update rfl rfl rfl rfl)

/-- A bound that is computed anew is only updated along dependences on scheduled operations. -/
theorem yields_recalculateOut (cb : Cb) (s : State) (k : ℕ) :
    (recalculateOut cb s k).Yields (BoundsOnly s) := by
  rw [recalculateOut]
  split_ifs with hignore hno
  · exact .ok (BoundsOnly.refl s)
  · exact .ok (BoundsOnly.refl s)
  · exact yields_updateUpperBounds (by simpa using hno)

theorem yields_recalculateIn (cb : Cb) (s : State) (k : ℕ) :
    (recalculateIn cb s k).Yields (BoundsOnly s) := by
  rw [recalculateIn]
  split_ifs with hignore hno
  · exact .ok (BoundsOnly.refl s)
  · exact .ok (BoundsOnly.refl s)
  · exact yields_updateLowerBounds (by simpa using hno)

/-- The test of the dependences of an operation on itself only computes. -/
theorem yields_selfDepsFit (cb : Cb) (o : ℕ) (ks : List ℕ) :
    (selfDepsFit cb o ks).Yields fun _ ↦ True := by
  induction ks with
  | nil => exact .ok trivial
  | cons k ks ih =>
    rw [selfDepsFit]
    split_ifs
    · exact ih
    · refine (Run.yields_int32 _).bind fun _ _ _ ↦ (Run.yields_int32 _).bind fun _ _ _ ↦ ?_
      split_ifs
      · exact .ok trivial
      · exact ih

/-- `SM_recalculate_upper_bound` looks at dependences on scheduled operations only. -/
theorem yields_recalculateUpperBound (cb : Cb) (s : State) (o : ℕ) :
    (recalculateUpperBound cb s o).Yields (BoundsOnly s) :=
  .foldlM_keeps (fun _ _ _ h ↦ .foldlM_keeps (fun k _ s₁ h₁ ↦
    (yields_recalculateOut cb s₁ k).mono fun _ h₂ ↦ h₁.trans h₂) h)
    (boundsOnly_update rfl rfl rfl rfl)

/-- So does `SM_recalculate_lower_bound`. -/
theorem yields_recalculateLowerBound (cb : Cb) (s : State) (o : ℕ) :
    (recalculateLowerBound cb s o).Yields (BoundsOnly s) :=
  .foldlM_keeps (fun _ _ _ h ↦ .foldlM_keeps (fun k _ s₁ h₁ ↦
    (yields_recalculateIn cb s₁ k).mono fun _ h₂ ↦ h₁.trans h₂) h)
    (boundsOnly_update rfl rfl rfl rfl)

/-! ### The operation that moves -/

/-- The dependences out of an operation into another one are those of the other one that come from it. -/
theorem countP_depsIn (hcb : cb.Sound) (hlisted : cb.Listed) (o o' : ℕ) :
    ((cb.depsIn o').countP fun k ↦ cb.counts k && (cb.dep k).fromOp == o) =
      (cb.depsOut o).countP (cb.countsFor o') := by
  rw [List.countP_eq_length_filter, List.countP_eq_length_filter]
  refine List.Perm.length_eq ((List.perm_ext_iff_of_nodup ((hlisted.nodup_depsIn o').filter _)
    ((hlisted.nodup_depsOut o).filter _)).2 fun k ↦ ?_)
  simp only [Cb.depsIn, Cb.depsOut, Cb.countsFor, List.mem_filter, List.mem_flatMap,
    Bool.and_eq_true, beq_iff_eq]
  constructor
  · rintro ⟨⟨a, ha, hk⟩, hcounts, rfl⟩
    obtain ⟨a', ha', hk'⟩ := (hcb.depOut k).1 (hcb.isDep_of_depIn ha hk)
    exact ⟨⟨a', ha', hk'⟩, hcounts, hcb.toOp_eq o' a ha k hk⟩
  · rintro ⟨⟨a, ha, hk⟩, hcounts, rfl⟩
    obtain ⟨a', ha', hk'⟩ := hcb.isDep_of_depOut ha hk
    exact ⟨⟨a', ha', hk'⟩, hcounts, hcb.fromOp_eq o a ha k hk⟩

/-- Scheduling operation `o` resolves the dependences out of it. -/
theorem unresolved_eq_add (hcb : cb.Sound) (hlisted : cb.Listed) (hoff : (s o).scheduled = false)
    (hon : (s' o).scheduled = true) (hsame : ∀ o' ≠ o, (s' o').scheduled = (s o').scheduled)
    (o' : ℕ) :
    unresolved cb s o' = unresolved cb s' o' + (cb.depsOut o).countP (cb.countsFor o') := by
  rw [← countP_depsIn hcb hlisted, unresolved, unresolved]
  induction cb.depsIn o' with
  | nil => rfl
  | cons k ks ih =>
    simp only [List.countP_cons, ih]
    by_cases hfrom : (cb.dep k).fromOp = o
    · simp only [hfrom, hoff, hon, Bool.not_false, Bool.not_true, Bool.and_true, Bool.and_false,
        Bool.false_eq_true, if_false, beq_self_eq_true]
      omega
    · have hbeq : ((cb.dep k).fromOp == o) = false := beq_eq_false_iff_ne.2 hfrom
      simp only [hsame _ hfrom, hbeq, Bool.and_false, Bool.false_eq_true, if_false]
      omega

/-! ### Scheduling -/

/-- Operation `o` was just scheduled, and the dependences `ks` out of it are still counted. The
alternatives are those of `alts`. -/
structure Resolving (cb : Cb) (alts : ℕ → Option ℕ) (o : ℕ) (ks : List ℕ) (s : State) : Prop where
  count : ∀ o', (s o').numUnresolvedHardDepIn = unresolved cb s o' + ks.countP (cb.countsFor o')
  queued : ∀ o' ≠ o, (s o').inDepInResolved = true →
    (s o').scheduled = false ∧ (s o').numUnresolvedHardDepIn = 0
  altChosen : ∀ o', (s o').scheduled = true → (s o').altChosen ≠ none
  scheduled : (s o).scheduled = true
  alt : ∀ o', (s o').altChosen = alts o'

theorem Resolving.boundsOnly (h : Resolving cb alts o ks s) (hb : BoundsOnly s s') :
    Resolving cb alts o ks s' where
  count o' := by
    rw [hb.count, unresolved_congr hb.scheduled]
    exact h.count o'
  queued o' ho' hq := by
    rw [hb.scheduled, hb.count]
    exact h.queued o' ho' (hb.queued o' ▸ hq)
  altChosen o' hs := by
    rw [hb.altChosen]
    exact h.altChosen o' (hb.scheduled o' ▸ hs)
  scheduled := (hb.scheduled o).trans h.scheduled
  alt o' := (hb.altChosen o').trans (h.alt o')

/-- A dependence that does not count, or was counted, is left behind. -/
theorem Resolving.tail (h : Resolving cb alts o (k :: ks) s) (hk : cb.counts k = false) :
    Resolving cb alts o ks s where
  count o' := by
    rw [h.count, List.countP_cons_of_neg (by simp [Cb.countsFor, hk])]
  queued := h.queued
  altChosen := h.altChosen
  scheduled := h.scheduled
  alt := h.alt

/-- One dependence less into the sink of `k`. -/
theorem Resolving.update (h : Resolving cb alts o (k :: ks) s) (hk : cb.counts k = true) {x : Oper}
    (hscheduled : x.scheduled = (s (cb.dep k).toOp).scheduled)
    (haltChosen : x.altChosen = (s (cb.dep k).toOp).altChosen)
    (hcount : x.numUnresolvedHardDepIn + 1 = (s (cb.dep k).toOp).numUnresolvedHardDepIn)
    (hqueued : (cb.dep k).toOp ≠ o → x.inDepInResolved = true →
      x.scheduled = false ∧ x.numUnresolvedHardDepIn = 0) :
    Resolving cb alts o ks (Function.update s (cb.dep k).toOp x) := by
  have hsched : ∀ o', (Function.update s (cb.dep k).toOp x o').scheduled = (s o').scheduled := by
    intro o'
    by_cases ho' : o' = (cb.dep k).toOp
    · rw [ho', Function.update_self, hscheduled]
    · rw [Function.update_of_ne ho']
  have halt : ∀ o', (Function.update s (cb.dep k).toOp x o').altChosen = (s o').altChosen := by
    intro o'
    by_cases ho' : o' = (cb.dep k).toOp
    · rw [ho', Function.update_self, haltChosen]
    · rw [Function.update_of_ne ho']
  refine ⟨fun o' ↦ ?_, fun o' ho' hq ↦ ?_, fun o' hs ↦ ?_, (hsched o).trans h.scheduled,
    fun o' ↦ (halt o').trans (h.alt o')⟩
  · have hold := h.count o'
    rw [unresolved_congr hsched]
    by_cases ho' : o' = (cb.dep k).toOp
    · subst ho'
      rw [List.countP_cons_of_pos (by simp [Cb.countsFor, hk])] at hold
      rw [Function.update_self]
      omega
    · rw [Function.update_of_ne ho', hold,
        List.countP_cons_of_neg (by simp [Cb.countsFor, Ne.symm ho'])]
  · by_cases heq : o' = (cb.dep k).toOp
    · subst heq
      rw [Function.update_self] at hq ⊢
      exact hqueued ho' hq
    · rw [Function.update_of_ne heq] at hq ⊢
      exact h.queued o' ho' hq
  · rw [hsched] at hs
    rw [halt]
    exact h.altChosen o' hs

/-- The count of the sink is not zero, and its mark not set. -/
theorem Resolving.resolveIn (h : Resolving cb alts o (k :: ks) s) (hignore : (cb.dep k).ignore = false) :
    (resolveIn cb s k).Yields (Resolving cb alts o ks) := by
  rw [Sm.resolveIn]
  cases hhard : (cb.dep k).hardDep with
  | false => exact .ok (h.tail (by simp [Cb.counts, hhard]))
  | true =>
    have hk : cb.counts k = true := by simp [Cb.counts, hhard, hignore]
    have hpos : (s (cb.dep k).toOp).numUnresolvedHardDepIn ≠ 0 := by
      rw [h.count, List.countP_cons_of_pos (by simp [Cb.countsFor, hk])]
      omega
    simp only [Bool.not_true, Bool.false_eq_true, if_false, if_neg hpos]
    split_ifs with hlast hmark
    · simp only [Bool.and_eq_true, decide_eq_true_eq, Bool.not_eq_true'] at hlast
      have hne : (cb.dep k).toOp ≠ o := by
        rintro rfl
        simp [h.scheduled] at hlast
      exact absurd (h.queued _ hne hmark).2 hpos
    · simp only [Bool.and_eq_true, decide_eq_true_eq, Bool.not_eq_true'] at hlast
      exact .ok (h.update hk rfl rfl (by dsimp only; omega) fun _ _ ↦ ⟨hlast.1.2, hlast.1.1⟩)
    · exact .ok (h.update hk rfl rfl (by dsimp only; omega) fun hne hmark ↦
        absurd (h.queued _ hne hmark).2 hpos)

/-- One dependence out of the operation. -/
theorem Resolving.updateOut (h : Resolving cb alts o (k :: ks) s) (hfrom : (cb.dep k).fromOp = o) :
    (updateOut cb s k).Yields (Resolving cb alts o ks) := by
  rw [Sm.updateOut]
  split_ifs with hignore
  · exact .ok (h.tail (by simp [Cb.counts, hignore]))
  · refine (h.resolveIn (by simpa using hignore)).bind fun s₁ _ h₁ ↦ ?_
    exact (yields_updateLowerBounds (hfrom ▸ h₁.scheduled)).mono fun _ ↦ h₁.boundsOnly

/-- One dependence into the operation. -/
theorem Resolving.updateIn (h : Resolving cb alts o ks s) (hto : (cb.dep k).toOp = o) :
    (updateIn cb s k).Yields (Resolving cb alts o ks) := by
  rw [Sm.updateIn]
  split_ifs
  · exact .ok h
  · exact (yields_updateUpperBounds (hto ▸ h.scheduled)).mono fun _ ↦ h.boundsOnly

/-- `SM_update_adjacent_bounds` counts all dependences out of the operation. -/
theorem Resolving.updateAdjacentBounds (hcb : cb.Sound) (h : Resolving cb alts o (cb.depsOut o) s) :
    (updateAdjacentBounds cb s o).Yields (Resolving cb alts o []) := by
  refine (Run.Yields.foldlM (P := fun as s ↦ (∀ a ∈ as, a ∈ (cb.oper o).actions) ∧
    Resolving cb alts o (as.flatMap RegAction.depOut) s) (fun a as s₁ h₁ ↦ ?_)
    ⟨fun _ ha ↦ ha, h⟩).mono fun _ h₁ ↦ h₁.2
  obtain ⟨hmem, h₁⟩ := h₁
  have ha := hmem a List.mem_cons_self
  rw [List.flatMap_cons] at h₁
  refine (Run.Yields.foldlM_keeps (fun k hk s₂ h₂ ↦
    h₂.updateIn (hcb.toOp_eq o a ha k hk)) h₁).bind fun s₂ _ h₂ ↦ ?_
  -- the dependences of later actions stay to be counted
  exact (Run.Yields.foldlM (P := fun ks s ↦ (∀ k ∈ ks, k ∈ a.depOut) ∧
    Resolving cb alts o (ks ++ as.flatMap RegAction.depOut) s) (fun k ks s₃ h₃ ↦
      (h₃.2.updateOut (hcb.fromOp_eq o a ha k (h₃.1 k List.mem_cons_self))).mono fun _ h₄ ↦
        ⟨fun k' hk' ↦ h₃.1 k' (List.mem_cons_of_mem k hk'), h₄⟩)
    ⟨fun _ hk ↦ hk, h₂⟩).mono fun _ h₃ ↦
      ⟨fun a' ha' ↦ hmem a' (List.mem_cons_of_mem a ha'), h₃.2⟩

/-- The end of `SM_schedule_oper_no_bundling` changes no alternative but that of the operation. -/
theorem Counted.commitOper (hcb : cb.Sound) (hlisted : cb.Listed) (h : Counted cb s)
    (hoff : (s o).scheduled = false) (issueTime : ℤ) (alt : ℕ) (slot : Slot) :
    (commitOper cb s o issueTime alt slot).Yields fun s' ↦ Counted cb s' ∧
      ∀ o', (s' o').altChosen = if o' = o then some alt else (s o').altChosen := by
  have hplaced : Resolving cb (fun o' ↦ if o' = o then some alt else (s o').altChosen) o
      (cb.depsOut o) (place s o (issueTime, slot) alt) := by
    have hon : (place s o (issueTime, slot) alt o).scheduled = true := by
      rw [place, Function.update_self]
    refine ⟨fun o' ↦ ?_, fun o' ho' hq ↦ ?_, fun o' hs ↦ ?_, hon, fun o' ↦ ?_⟩
    · rw [← unresolved_eq_add hcb hlisted hoff hon fun o' ho' ↦ by rw [place_of_ne ho'], ← h.count]
      by_cases ho' : o' = o
      · rw [ho', place, Function.update_self]
      · rw [place_of_ne ho']
    · rw [place_of_ne ho'] at hq ⊢
      exact h.queued o' hq
    · by_cases ho' : o' = o
      · rw [ho', place, Function.update_self]
        exact Option.some_ne_none alt
      · rw [place_of_ne ho'] at hs ⊢
        exact h.altChosen o' hs
    · split_ifs with ho'
      · rw [ho', place, Function.update_self]
      · rw [place_of_ne ho']
  refine (hplaced.updateAdjacentBounds hcb).bind fun s₁ _ h₁ ↦ .ok ?_
  have hsched : ∀ o', (Function.update s₁ o { s₁ o with inDepInResolved := false } o').scheduled =
      (s₁ o').scheduled := by
    intro o'
    by_cases ho' : o' = o
    · rw [ho', Function.update_self]
    · rw [Function.update_of_ne ho']
  have halt : ∀ o', (Function.update s₁ o { s₁ o with inDepInResolved := false } o').altChosen =
      (s₁ o').altChosen := by
    intro o'
    by_cases ho' : o' = o
    · rw [ho', Function.update_self]
    · rw [Function.update_of_ne ho']
  refine ⟨⟨fun o' ↦ ?_, fun o' hq ↦ ?_, fun o' hs ↦ ?_⟩, fun o' ↦ (halt o').trans (h₁.alt o')⟩
  · rw [unresolved_congr hsched, ← Nat.add_zero (unresolved cb s₁ o'), ← List.countP_nil,
      ← h₁.count]
    by_cases ho' : o' = o
    · rw [ho', Function.update_self]
    · rw [Function.update_of_ne ho']
  · by_cases ho' : o' = o
    · rw [ho', Function.update_self] at hq
      exact absurd hq Bool.false_ne_true
    · rw [Function.update_of_ne ho'] at hq ⊢
      exact h₁.queued o' ho' hq
  · rw [hsched] at hs
    rw [halt]
    exact h₁.altChosen o' hs

/-- An operation that is not scheduled can be scheduled, or not, but the call does not punt. -/
theorem Counted.scheduleOper (hcb : cb.Sound) (hlisted : cb.Listed) (h : Counted cb s)
    (hoff : (s o).scheduled = false) (issueTime earliestSlot latestSlot : ℤ) (testOnly : Bool)
    (tables : List TableSearch) :
    (scheduleOper cb s o issueTime earliestSlot latestSlot testOnly tables).Yields fun p ↦
      Counted cb p.1 := by
  have hplace : ∀ earliest latest,
      (placeOper cb s o issueTime earliest latest testOnly tables).Yields fun p ↦
        Counted cb p.1 := by
    intro earliest latest
    rw [placeOper]
    split
    · exact .ok h
    · split_ifs
      · exact .ok h
      · exact (h.commitOper hcb hlisted hoff issueTime _ _).bind fun _ _ h₁ ↦ .ok h₁.1
  rw [Sm.scheduleOper]
  simp only [hoff, Bool.false_eq_true, if_false]
  split_ifs
  · exact .ok h
  · exact .ok h
  · rw [searchOper]
    split_ifs
    · exact .ok h
    · refine (yields_selfDepsFit cb o _).bind fun fit _ _ ↦ ?_
      split_ifs
      · exact hplace _ _
      · exact .ok h
    · exact hplace _ _

/-! ### Unscheduling -/

/-- Operation `o` was just unscheduled, and the dependences `ks` out of it are not counted yet. -/
structure Releasing (cb : Cb) (alts : ℕ → Option ℕ) (o : ℕ) (ks : List ℕ) (s : State) : Prop where
  count : ∀ o', (s o').numUnresolvedHardDepIn + ks.countP (cb.countsFor o') = unresolved cb s o'
  queued : ∀ o', (s o').inDepInResolved = true →
    (s o').scheduled = false ∧ (s o').numUnresolvedHardDepIn = 0
  altChosen : ∀ o' ≠ o, (s o').scheduled = true → (s o').altChosen ≠ none
  unscheduled : (s o).scheduled = false
  unmarked : (s o).inDepInResolved = false
  alt : ∀ o', (s o').altChosen = alts o'

theorem Releasing.boundsOnly (h : Releasing cb alts o ks s) (hb : BoundsOnly s s') :
    Releasing cb alts o ks s' where
  count o' := by
    rw [hb.count, unresolved_congr hb.scheduled]
    exact h.count o'
  queued o' hq := by
    rw [hb.scheduled, hb.count]
    exact h.queued o' (hb.queued o' ▸ hq)
  altChosen o' ho' hs := by
    rw [hb.altChosen]
    exact h.altChosen o' ho' (hb.scheduled o' ▸ hs)
  unscheduled := (hb.scheduled o).trans h.unscheduled
  unmarked := (hb.queued o).trans h.unmarked
  alt o' := (hb.altChosen o').trans (h.alt o')

/-- A dependence that does not count is left behind. -/
theorem Releasing.tail (h : Releasing cb alts o (k :: ks) s) (hk : cb.counts k = false) :
    Releasing cb alts o ks s where
  count o' := by
    rw [← h.count, List.countP_cons_of_neg (by simp [Cb.countsFor, hk])]
  queued := h.queued
  altChosen := h.altChosen
  unscheduled := h.unscheduled
  unmarked := h.unmarked
  alt := h.alt

/-- One dependence more into the sink of `k`. -/
theorem Releasing.unresolveIn (h : Releasing cb alts o (k :: ks) s)
    (hignore : (cb.dep k).ignore = false) : Releasing cb alts o ks (unresolveIn cb s k) := by
  rw [Sm.unresolveIn]
  split_ifs with hhard
  · have hk : cb.counts k = true := by simp [Cb.counts, hhard, hignore]
    have hsame : ∀ o', o' ≠ (cb.dep k).toOp → ∀ x : Oper,
        Function.update s (cb.dep k).toOp x o' = s o' := fun o' ho' x ↦ Function.update_of_ne ho' _ _
    have hsched : ∀ o', (Function.update s (cb.dep k).toOp { s (cb.dep k).toOp with
        numUnresolvedHardDepIn := (s (cb.dep k).toOp).numUnresolvedHardDepIn + 1
        inDepInResolved := false } o').scheduled = (s o').scheduled := by
      intro o'
      by_cases ho' : o' = (cb.dep k).toOp
      · rw [ho', Function.update_self]
      · rw [hsame o' ho']
    have halt : ∀ o', (Function.update s (cb.dep k).toOp { s (cb.dep k).toOp with
        numUnresolvedHardDepIn := (s (cb.dep k).toOp).numUnresolvedHardDepIn + 1
        inDepInResolved := false } o').altChosen = (s o').altChosen := by
      intro o'
      by_cases ho' : o' = (cb.dep k).toOp
      · rw [ho', Function.update_self]
      · rw [hsame o' ho']
    refine ⟨fun o' ↦ ?_, fun o' hq ↦ ?_, fun o' ho' hs ↦ ?_, (hsched o).trans h.unscheduled, ?_,
      fun o' ↦ (halt o').trans (h.alt o')⟩
    · have hold := h.count o'
      rw [unresolved_congr hsched]
      by_cases ho' : o' = (cb.dep k).toOp
      · subst ho'
        rw [List.countP_cons_of_pos (by simp [Cb.countsFor, hk])] at hold
        rw [Function.update_self]
        dsimp only
        omega
      · rw [hsame o' ho', ← hold,
          List.countP_cons_of_neg (by simp [Cb.countsFor, Ne.symm ho'])]
    · by_cases ho' : o' = (cb.dep k).toOp
      · rw [ho', Function.update_self] at hq
        exact absurd hq Bool.false_ne_true
      · rw [hsame o' ho'] at hq ⊢
        exact h.queued o' hq
    · rw [hsched] at hs
      rw [halt]
      exact h.altChosen o' ho' hs
    · by_cases ho' : o = (cb.dep k).toOp
      · rw [ho', Function.update_self]
      · rw [hsame o ho']
        exact h.unmarked
  · exact h.tail (by simp [Cb.counts, hhard])

/-- One dependence out of the operation. -/
theorem Releasing.releaseOut (h : Releasing cb alts o (k :: ks) s) :
    (releaseOut cb s k).Yields (Releasing cb alts o ks) := by
  rw [Sm.releaseOut]
  split_ifs with hignore
  · exact .ok (h.tail (by simp [Cb.counts, hignore]))
  · exact (yields_recalculateLowerBound cb _ _).mono fun _ ↦
      (h.unresolveIn (by simpa using hignore)).boundsOnly
  · exact .ok (h.unresolveIn (by simpa using hignore))

/-- One dependence into the operation. -/
theorem Releasing.releaseIn (h : Releasing cb alts o ks s) (k : ℕ) :
    (releaseIn cb s k).Yields (Releasing cb alts o ks) := by
  rw [Sm.releaseIn]
  split_ifs
  · exact .ok h
  · exact (yields_recalculateUpperBound cb _ _).mono fun _ ↦ h.boundsOnly
  · exact .ok h

/-- When all are counted, only the mark of the operation is missing. -/
theorem Releasing.counted (h : Releasing cb alts o [] s) : Counted cb s where
  count o' := h.count o'
  queued := h.queued
  altChosen o' hs := h.altChosen o' (fun ho' ↦ by simp [ho', h.unscheduled] at hs) hs

/-- A change to an operation that is not scheduled. -/
theorem Counted.update_unscheduled (h : Counted cb s) (hoff : (s o).scheduled = false) {x : Oper}
    (hx : x.scheduled = false) (hcount : x.numUnresolvedHardDepIn = (s o).numUnresolvedHardDepIn)
    (hqueued : x.inDepInResolved = true → x.numUnresolvedHardDepIn = 0) :
    Counted cb (Function.update s o x) := by
  have hsched : ∀ o', (Function.update s o x o').scheduled = (s o').scheduled := by
    intro o'
    by_cases ho' : o' = o
    · rw [ho', Function.update_self, hx, hoff]
    · rw [Function.update_of_ne ho']
  refine ⟨fun o' ↦ ?_, fun o' hq ↦ ?_, fun o' hs ↦ ?_⟩
  · rw [unresolved_congr hsched, ← h.count]
    by_cases ho' : o' = o
    · rw [ho', Function.update_self, hcount]
    · rw [Function.update_of_ne ho']
  · by_cases ho' : o' = o
    · rw [ho', Function.update_self] at hq ⊢
      exact ⟨hx, hqueued hq⟩
    · rw [Function.update_of_ne ho'] at hq ⊢
      exact h.queued o' hq
  · have ho' : o' ≠ o := by
      rintro rfl
      rw [hsched, hoff] at hs
      exact absurd hs Bool.false_ne_true
    rw [Function.update_of_ne ho'] at hs ⊢
    exact h.altChosen o' hs

/-- The operation is not in the queue before it enters it. -/
theorem Releasing.enqueueResolved (h : Releasing cb alts o [] s) :
    (enqueueResolved cb s o).Yields fun s' ↦ Counted cb s' ∧ (s' o).scheduled = false ∧
      ∀ o', (s' o').altChosen = alts o' := by
  rw [Sm.enqueueResolved]
  simp only [h.unmarked, Bool.false_eq_true, if_false]
  split_ifs with hlast
  · simp only [Bool.and_eq_true, decide_eq_true_eq] at hlast
    refine .ok ⟨h.counted.update_unscheduled h.unscheduled h.unscheduled rfl fun _ ↦ hlast.1, ?_,
      fun o' ↦ ?_⟩
    · rw [Function.update_self]
      exact h.unscheduled
    · by_cases ho' : o' = o
      · rw [ho', Function.update_self]
        exact h.alt o
      · rw [Function.update_of_ne ho']
        exact h.alt o'
  · exact .ok ⟨h.counted, h.unscheduled, h.alt⟩

/-- `SM_recalculate_adjacent_bounds` counts all dependences out of the operation. -/
theorem Releasing.recalculateAdjacentBounds (h : Releasing cb alts o (cb.depsOut o) s) :
    (recalculateAdjacentBounds cb s o).Yields fun s' ↦ Counted cb s' ∧
      (s' o).scheduled = false ∧ ∀ o', (s' o').altChosen = alts o' := by
  have hactions : ((cb.oper o).actions.foldlM (fun s (a : RegAction) ↦ do
      let s ← a.depIn.foldlM (Sm.releaseIn cb) s
      a.depOut.foldlM (Sm.releaseOut cb) s) s).Yields (Releasing cb alts o []) := by
    refine Run.Yields.foldlM (P := fun as s ↦ Releasing cb alts o (as.flatMap RegAction.depOut) s)
      (fun a as s₁ h₁ ↦ ?_) h
    rw [List.flatMap_cons] at h₁
    refine (Run.Yields.foldlM_keeps (fun k _ s₂ h₂ ↦ h₂.releaseIn k) h₁).bind fun s₂ _ h₂ ↦ ?_
    exact Run.Yields.foldlM (P := fun ks s ↦ Releasing cb alts o (ks ++ as.flatMap RegAction.depOut) s)
      (fun k ks s₃ h₃ ↦ h₃.releaseOut) h₂
  rw [Sm.recalculateAdjacentBounds]
  simp only [h.unscheduled, Bool.false_eq_true, if_false]
  refine hactions.bind fun s₁ _ h₁ ↦ ?_
  refine (yields_recalculateUpperBound cb s₁ o).bind fun s₂ _ h₂ ↦ ?_
  refine (yields_recalculateLowerBound cb s₂ o).bind fun s₃ _ h₃ ↦ ?_
  exact ((h₁.boundsOnly h₂).boundsOnly h₃).enqueueResolved

/-- An operation that is scheduled can be unscheduled, which changes no alternative but its own. -/
theorem Counted.unscheduleOper (hcb : cb.Sound) (hlisted : cb.Listed) (h : Counted cb s)
    (hon : (s o).scheduled = true) : (unscheduleOper cb s o).Yields fun s' ↦ Counted cb s' ∧
      ∀ o' ≠ o, (s' o').altChosen = (s o').altChosen := by
  have hreleased : Releasing cb (fun o' ↦ (s o').altChosen) o (cb.depsOut o)
      (Function.update s o { s o with scheduled := false }) := by
    have hoff : (Function.update s o { s o with scheduled := false } o).scheduled = false := by
      rw [Function.update_self]
    have hsame : ∀ o' ≠ o, (s o').scheduled =
        (Function.update s o { s o with scheduled := false } o').scheduled := fun o' ho' ↦ by
      rw [Function.update_of_ne ho']
    have hunmarked : (s o).inDepInResolved = false := by
      by_contra hq
      have := (h.queued o (by simpa using hq)).1
      simp [hon] at this
    refine ⟨fun o' ↦ ?_, fun o' hq ↦ ?_, fun o' ho' hs ↦ ?_, hoff, ?_, fun o' ↦ ?_⟩
    · rw [unresolved_eq_add hcb hlisted hoff hon hsame, ← h.count]
      by_cases ho' : o' = o
      · rw [ho', Function.update_self]
      · rw [Function.update_of_ne ho']
    · by_cases ho' : o' = o
      · rw [ho', Function.update_self, hunmarked] at hq
        exact absurd hq Bool.false_ne_true
      · rw [Function.update_of_ne ho'] at hq ⊢
        exact h.queued o' hq
    · rw [Function.update_of_ne ho'] at hs ⊢
      exact h.altChosen o' hs
    · rw [Function.update_self]
      exact hunmarked
    · by_cases ho' : o' = o
      · rw [ho', Function.update_self]
      · rw [Function.update_of_ne ho']
  rw [Sm.unscheduleOper]
  simp only [hon, Bool.not_true, Bool.false_eq_true, if_false, if_neg (h.altChosen o hon)]
  refine hreleased.recalculateAdjacentBounds.bind fun s₁ _ h₁ ↦ .ok ?_
  obtain ⟨hcounted, hoff, halt⟩ := h₁
  refine ⟨hcounted.update_unscheduled hoff hoff rfl fun hq ↦ (hcounted.queued o hq).2,
    fun o' ho' ↦ ?_⟩
  rw [Function.update_of_ne ho']
  exact halt o'

/-! ### Runs of calls -/

/-- A scheduling call is for an operation that is not scheduled, and the other one for one that is. -/
def Call.Fits (s : State) : Call → Prop
  | .schedule o _ _ _ _ _ => (s o).scheduled = false
  | .unschedule o => (s o).scheduled = true

/-- Such a call does not punt, and leaves the counts right. -/
theorem Counted.exec (hcb : cb.Sound) (hlisted : cb.Listed) (h : Counted cb s) {c : Call}
    (hc : c.Fits s) : (c.exec cb s).Yields (Counted cb) := by
  cases c with
  | schedule o issueTime earliestSlot latestSlot testOnly tables =>
    exact (h.scheduleOper hcb hlisted hc issueTime earliestSlot latestSlot testOnly tables).bind
      fun _ _ h₁ ↦ .ok h₁
  | unschedule o => exact (h.unscheduleOper hcb hlisted hc).mono fun _ h₁ ↦ h₁.1

/-- In every state that such calls reach, none of them punts. -/
theorem counted_of_reach (hcb : cb.Sound) (hlisted : cb.Listed) (h : Counted cb s)
    (hreach : Reach (Call.exec cb) Call.Fits s s') :
    Counted cb s' ∧ ∀ c : Call, c.Fits s' → (c.exec cb s').Yields (Counted cb) := by
  have hcounted : Counted cb s' :=
    hreach.inv h fun hs hc hrun ↦ (hs.exec hcb hlisted hc).1 _ hrun
  exact ⟨hcounted, fun _ hc ↦ hcounted.exec hcb hlisted hc⟩

/-- Before scheduling the counts are the numbers of the dependences, and an operation is only marked
if it has none. -/
theorem counted_of_unscheduled (hoff : ∀ o, (s o).scheduled = false)
    (hcount : ∀ o, (s o).numUnresolvedHardDepIn = (cb.depsIn o).countP cb.counts)
    (hqueued : ∀ o, (s o).inDepInResolved = true → (s o).numUnresolvedHardDepIn = 0) :
    Counted cb s where
  count o := by simp [hcount, unresolved, hoff]
  queued o hq := ⟨hoff o, hqueued o hq⟩
  altChosen o hs := by simp [hoff] at hs

end OpenImpact.Sm
