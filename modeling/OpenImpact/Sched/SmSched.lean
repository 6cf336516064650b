import OpenImpact.Sched.SmBounds
import OpenImpact.Lcode.RmapSched

/-!
# Scheduling and unscheduling operations

`SM_schedule_oper_no_bundling` and `SM_unschedule_oper` of `sm_sched.c`, for dependences of fixed
delay. After any calls the bounds of every operation respect the scheduled ones, so an operation is
only scheduled where all its dependences hold.

`runCalls_depHolds` is about every state that calls reach from one in which nothing is scheduled. It
rests on `Inv`: the bounds of an operation respect every scheduled operation that a dependence joins
with it, and there is one lemma for what a call does to them (`commitOper_spec`,
`unscheduleOper_cases`). The resource map is a parameter here, as the tables that are searched. A
range of slots asked for begins at 65535 at most and ends at 0 at least (`Call.InRange`); otherwise
its bounds are cut to `unsigned short` and other slots are searched (`not_depHolds_truncated`). Soft
dependences and templates are left out.
-/

namespace OpenImpact.Sm

/-! ### The source's functions -/

/-- A dependence into the operation that was just scheduled. -/
def updateIn (cb : Cb) (s : State) (k : ℕ) : Run State :=
  if (cb.dep k).ignore then .ok s else updateUpperBounds cb s k

/-- The count of unresolved dependences into the sink of dependence `k`, and `dep_in_resolved`. -/
def resolveIn (cb : Cb) (s : State) (k : ℕ) : Run State :=
  let o := s (cb.dep k).toOp
  if !(cb.dep k).hardDep then .ok s
  else if o.numUnresolvedHardDepIn = 0 then
    .error (.punt ("SM_update_adjacent_bounds: %s op %i: " ++
      "num_unresolved_hard_dep_in already zero"))
  else if o.numUnresolvedHardDepIn - 1 = 0 && !o.scheduled && !(cb.oper (cb.dep k).toOp).ignore then
    if o.inDepInResolved then
      .error (.punt ("SM_update_adjacent_bounds:\n" ++ "    %s op %i already in resolved queue!"))
    else .ok (Function.update s (cb.dep k).toOp { o with
      numUnresolvedHardDepIn := o.numUnresolvedHardDepIn - 1
      inDepInResolved := true })
  else .ok (Function.update s (cb.dep k).toOp { o with
    numUnresolvedHardDepIn := o.numUnresolvedHardDepIn - 1 })

/-- A dependence out of the operation that was just scheduled. -/
def updateOut (cb : Cb) (s : State) (k : ℕ) : Run State :=
  if (cb.dep k).ignore then .ok s
  else do
    let s ← resolveIn cb s k
    updateLowerBounds cb s k

/-- `SM_update_adjacent_bounds`. -/
def updateAdjacentBounds (cb : Cb) (s : State) (o : ℕ) : Run State :=
  (cb.oper o).actions.foldlM (fun s a ↦ do
    let s ← a.depIn.foldlM (updateIn cb) s
    a.depOut.foldlM (updateOut cb) s) s

/-- A dependence into the operation that was just unscheduled. -/
def releaseIn (cb : Cb) (s : State) (k : ℕ) : Run State :=
  if (cb.dep k).ignore then .ok s
  else if (s (cb.dep k).fromOp).upperBound.dep = some k then
    recalculateUpperBound cb s (cb.dep k).fromOp
  else .ok s

/-- The count and the queue for a dependence out of the operation that was just unscheduled. -/
def unresolveIn (cb : Cb) (s : State) (k : ℕ) : State :=
  let o := s (cb.dep k).toOp
  if (cb.dep k).hardDep then
    Function.update s (cb.dep k).toOp { o with
      numUnresolvedHardDepIn := o.numUnresolvedHardDepIn + 1
      inDepInResolved := false }
  else s

/-- A dependence out of the operation that was just unscheduled, without a priority queue. -/
def releaseOut (cb : Cb) (s : State) (k : ℕ) : Run State :=
  if (cb.dep k).ignore then .ok s
  else if (unresolveIn cb s k (cb.dep k).toOp).lowerBound.dep = some k then
    recalculateLowerBound cb (unresolveIn cb s k) (cb.dep k).toOp
  else .ok (unresolveIn cb s k)

/-- The end of `SM_recalculate_adjacent_bounds`: the operation itself goes back to
`dep_in_resolved`. -/
def enqueueResolved (cb : Cb) (s : State) (o : ℕ) : Run State :=
  if (s o).numUnresolvedHardDepIn = 0 && !(cb.oper o).ignore then
    if (s o).inDepInResolved then
      .error (.punt ("SM_recalculate_adjacent_bounds:\n" ++
        "    %s op %i already in resolved queue!"))
    else .ok (Function.update s o { s o with inDepInResolved := true })
  else .ok s

/-- `SM_recalculate_adjacent_bounds` with `priority_queue == NULL`. -/
def recalculateAdjacentBounds (cb : Cb) (s : State) (o : ℕ) : Run State :=
  if (s o).scheduled then
    .error (.punt "SM_recalculate_adjacent_bounds: Error, op marked scheduled!")
  else do
    let s ← (cb.oper o).actions.foldlM (fun s a ↦ do
      let s ← a.depIn.foldlM (releaseIn cb) s
      a.depOut.foldlM (releaseOut cb) s) s
    let s ← recalculateUpperBound cb s o
    let s ← recalculateLowerBound cb s o
    enqueueResolved cb s o

/-- The scan of the dependences of operation `o` on itself, whether II is large enough for them. -/
def selfDepsFit (cb : Cb) (o : ℕ) : List ℕ → Run Bool
  | [] => .ok true
  | k :: ks =>
    if (cb.dep k).omega = 0 ∨ (cb.dep k).ignore ∨ (cb.dep k).fromOp ≠ o then selfDepsFit cb o ks
    else do
      let distance ← int32 ((cb.dep k).omega * cb.ii)
      let delay ← int32 ((cb.dep k).minDelay - distance)
      if delay > 0 then .ok false else selfDepsFit cb o ks

/-- What `SM_sched_table` or `SM_modulo_sched_table` finds for the table of an alternative, given
the slot bounds: a slot within them, or none. -/
structure TableSearch where
  find : Slot → Slot → Option Slot
  within : ∀ minSlot maxSlot slot, find minSlot maxSlot = some slot →
    minSlot ≤ slot ∧ slot ≤ maxSlot

/-- The search of a table `t` whose words are at the indices `addr` of the resource map. -/
def TableSearch.ofTable (m : Rmap.Cells) (addr : ℕ → ℤ) (t : Rmap.SMTable) : TableSearch where
  find minSlot maxSlot :=
    match Rmap.chooseChoices m addr t minSlot maxSlot 0 0 t.choices with
    | .ok (some (slot, _)) => some (Fin.ofNat 65536 slot)
    | _ => none
  within minSlot maxSlot slot h := by
    split at h
    · rename_i slot' ids hfound
      obtain ⟨c, hc, -⟩ := t.exists_slotChoice
      have hlt := (List.getElem?_eq_some_iff.1 hc).1
      have hslot := (Rmap.chooseChoices_slot hfound).1 (Nat.zero_le _) (by omega)
      obtain rfl := Option.some.inj h
      have hval : (Fin.ofNat 65536 slot' : ℕ) = slot' :=
        Nat.mod_eq_of_lt (hslot.2.trans_lt maxSlot.isLt)
      rw [Fin.le_def, Fin.le_def, hval]
      exact hslot
    · cases h

/-- The loop over the compatible alternatives: the first that can be scheduled, and its slot. -/
def firstAlternative (testOnlyOneAlt : Bool) (minSlot maxSlot : Slot) :
    ℕ → List TableSearch → Option (ℕ × Slot)
  | _, [] => none
  | alt, t :: ts =>
    match t.find minSlot maxSlot with
    | some slot => some (alt, slot)
    | none =>
      if testOnlyOneAlt then none
      else firstAlternative testOnlyOneAlt minSlot maxSlot (alt + 1) ts

/-- An `int` passed as `unsigned short`. -/
def toSlot (n : ℤ) : Slot :=
  ⟨(n % 65536).toNat, by omega⟩

/-- The end of `SM_schedule_oper_no_bundling`: the operation is scheduled. -/
def commitOper (cb : Cb) (s : State) (o : ℕ) (issueTime : ℤ) (alt : ℕ) (slot : Slot) :
    Run State := do
  let s ← updateAdjacentBounds cb (Function.update s o { s o with
    scheduled := true
    schedCycle := issueTime
    schedSlot := slot
    altChosen := some alt }) o
  .ok (Function.update s o { s o with inDepInResolved := false })

/-- The search for an alternative in `SM_schedule_oper_no_bundling`. -/
def placeOper (cb : Cb) (s : State) (o : ℕ) (issueTime earliestSlot latestSlot : ℤ)
    (testOnly : Bool) (tables : List TableSearch) : Run (State × Bool) :=
  match firstAlternative cb.testOnlyOneAlt (toSlot earliestSlot) (toSlot latestSlot) 0 tables with
  | none => .ok (s, false)
  | some (alt, slot) =>
    if testOnly then .ok (s, true)
    else do
      let s ← commitOper cb s o issueTime alt slot
      .ok (s, true)

/-- `SM_schedule_oper_no_bundling` once the slot bounds are adjusted. -/
def searchOper (cb : Cb) (s : State) (o : ℕ) (issueTime earliestSlot latestSlot : ℤ)
    (testOnly : Bool) (tables : List TableSearch) : Run (State × Bool) :=
  if earliestSlot > latestSlot then .ok (s, false)
  else if cb.moduloResources then do
    let fit ← selfDepsFit cb o ((cb.oper o).actions.flatMap RegAction.depIn)
    if fit then placeOper cb s o issueTime earliestSlot latestSlot testOnly tables
    else .ok (s, false)
  else placeOper cb s o issueTime earliestSlot latestSlot testOnly tables

/-- `earliest_slot`, adjusted right at the lower bound. -/
def adjustEarliest (lower : Bound) (issueTime earliestSlot : ℤ) : ℤ :=
  if issueTime = lower.cycle ∧ earliestSlot < lower.slot then lower.slot else earliestSlot

/-- `latest_slot`, adjusted right at the upper bound. -/
def adjustLatest (upper : Bound) (issueTime latestSlot : ℤ) : ℤ :=
  if issueTime = upper.cycle ∧ latestSlot > upper.slot then upper.slot else latestSlot

/-- `SM_schedule_oper_no_bundling`, for an operation without variable actions. -/
def scheduleOper (cb : Cb) (s : State) (o : ℕ) (issueTime earliestSlot latestSlot : ℤ)
    (testOnly : Bool) (tables : List TableSearch) : Run (State × Bool) :=
  if (s o).scheduled then
    .error (.punt "SM_schedule_oper: %s op %i time %i already scheduled in cycle %i!")
  else if issueTime < (s o).nosoftLowerBound.cycle then .ok (s, false)
  else if issueTime > (s o).nosoftUpperBound.cycle then .ok (s, false)
  else
    searchOper cb s o issueTime (adjustEarliest (s o).nosoftLowerBound issueTime earliestSlot)
      (adjustLatest (s o).nosoftUpperBound issueTime latestSlot) testOnly tables

/-- `SM_unschedule_oper` with `priority_queue == NULL`. -/
def unscheduleOper (cb : Cb) (s : State) (o : ℕ) : Run State :=
  if !(s o).scheduled then .error (.punt "SM_unschedule_oper: %s op %i has not been scheduled!")
  else if (s o).altChosen = none then
    .error (.punt "SM_unschedule_oper: sm_op->alt_chosen NULL\n")
  else do
    let s ← recalculateAdjacentBounds cb (Function.update s o { s o with scheduled := false }) o
    .ok (Function.update s o { s o with
      schedCycle := -maxCycle
      schedSlot := maxSlot
      altChosen := none })

/-! ### Runs -/

/-- The calls of a scheduler. -/
inductive Call where
  /-- `SM_schedule_oper_no_bundling`, with what the searches of the alternatives' tables find. -/
  | schedule (o : ℕ) (issueTime earliestSlot latestSlot : ℤ) (testOnly : Bool)
      (tables : List TableSearch)
  /-- `SM_unschedule_oper`. -/
  | unschedule (o : ℕ)

/-- One call. -/
def Call.exec (cb : Cb) (s : State) : Call → Run State
  | .schedule o issueTime earliestSlot latestSlot testOnly tables => do
    let (s, _) ← scheduleOper cb s o issueTime earliestSlot latestSlot testOnly tables
    .ok s
  | .unschedule o => unscheduleOper cb s o

/-- The calls of a run in turn. -/
def runCalls (cb : Cb) (calls : List Call) (s : State) : Run State :=
  calls.foldlM (Call.exec cb) s

/-- The slot range of a scheduling call contains a slot. -/
def Call.InRange : Call → Prop
  | .schedule _ _ earliestSlot latestSlot _ _ => earliestSlot ≤ 65535 ∧ 0 ≤ latestSlot
  | .unschedule _ => True

/-- Dependence `k` is in the lists of the operation it leads to. -/
def Cb.IsDep (cb : Cb) (k : ℕ) : Prop :=
  ∃ a ∈ (cb.oper (cb.dep k).toOp).actions, k ∈ a.depIn

/-- A graph of hard dependences of fixed delay, and the interval between iterations. -/
structure Cb.Sound (cb : Cb) : Prop where
  toOp_eq : ∀ o, ∀ a ∈ (cb.oper o).actions, ∀ k ∈ a.depIn, (cb.dep k).toOp = o
  fromOp_eq : ∀ o, ∀ a ∈ (cb.oper o).actions, ∀ k ∈ a.depOut, (cb.dep k).fromOp = o
  depOut : ∀ k, cb.IsDep k ↔ ∃ a ∈ (cb.oper (cb.dep k).fromOp).actions, k ∈ a.depOut
  hardDep : ∀ k, cb.IsDep k → (cb.dep k).hardDep = true
  omega_nonneg : ∀ k, cb.IsDep k → 0 ≤ (cb.dep k).omega
  omega_eq : cb.moduloResources = false → ∀ k, cb.IsDep k → (cb.dep k).omega = 0
  one_le_ii : 1 ≤ cb.ii

/-- The dependences of an operation on itself lead to later iterations. -/
def Cb.SelfDepsCarried (cb : Cb) : Prop :=
  ∀ k, cb.IsDep k → (cb.dep k).ignore = false → (cb.dep k).fromOp = (cb.dep k).toOp →
    (cb.dep k).omega ≠ 0

/-- Dependence `k` holds where its operations are scheduled. -/
def DepHolds (cb : Cb) (s : State) (k : ℕ) : Prop :=
  let d := cb.dep k
  (s d.toOp).schedCycle ≥ (s d.fromOp).schedCycle + d.minDelay - d.omega * cb.ii ∧
    (d.minDelay = 0 → (d.omega = 0 ∨ d.regDep = false) →
      Before ((s d.fromOp).schedCycle - d.omega * cb.ii, (s d.fromOp).schedSlot)
        ((s d.toOp).schedCycle, (s d.toOp).schedSlot))

/-! ### The invariant -/

/-- The bounds respect the scheduled operations, and their dependences hold. -/
structure Inv (cb : Cb) (s : State) : Prop where
  upper : ∀ k, cb.IsDep k → (cb.dep k).ignore = false → (s (cb.dep k).toOp).scheduled = true →
    UpperDone cb k s
  lower : ∀ k, cb.IsDep k → (cb.dep k).ignore = false → (s (cb.dep k).fromOp).scheduled = true →
    LowerDone cb k s
  holds : ∀ k, cb.IsDep k → (cb.dep k).ignore = false → (s (cb.dep k).fromOp).scheduled = true →
    (s (cb.dep k).toOp).scheduled = true → DepHolds cb s k

section Invariant

variable {cb : Cb} {s s' : State} {k o : ℕ} {a : RegAction}

/-- A dependence without delay asks for an order of the slots, within one iteration or if it is not
through a register. -/
theorem zeroCycle_of {d : Dep} (hdelay : d.minDelay = 0) (h : d.omega = 0 ∨ d.regDep = false) :
    d.zeroCycle = true := by
  rcases h with h | h <;> simp [Dep.zeroCycle, hdelay, h]

/-- The upper bound that a dependence puts on its source, met by both, is the dependence. -/
theorem depHolds_of_upperMet (h : UpperMet cb s (cb.dep k)
    ((s (cb.dep k).fromOp).schedCycle, (s (cb.dep k).fromOp).schedSlot)) : DepHolds cb s k := by
  obtain ⟨hle, hzero⟩ := h
  dsimp only at hle
  refine ⟨by omega, fun hdelay hcond ↦ ?_⟩
  refine (hzero (zeroCycle_of hdelay hcond)).imp (fun hlt ↦ ?_) fun heq ↦ ⟨?_, heq.2⟩
  · dsimp only at hlt ⊢
    omega
  · have := heq.1
    dsimp only at this ⊢
    omega

/-- So is the lower bound that it puts on its sink. -/
theorem depHolds_of_lowerMet (h : LowerMet cb s (cb.dep k)
    ((s (cb.dep k).toOp).schedCycle, (s (cb.dep k).toOp).schedSlot)) : DepHolds cb s k := by
  obtain ⟨hle, hzero⟩ := h
  refine ⟨hle, fun hdelay hcond ↦ ?_⟩
  refine (hzero (zeroCycle_of hdelay hcond)).imp (fun hlt ↦ ?_) fun heq ↦ ⟨?_, heq.2⟩
  · dsimp only at hlt ⊢
    omega
  · have := heq.1
    dsimp only at this ⊢
    omega

/-- The dependences into an operation are dependences of the graph. -/
theorem Cb.Sound.isDep_of_depIn (h : cb.Sound) (ha : a ∈ (cb.oper o).actions) (hk : k ∈ a.depIn) :
    cb.IsDep k :=
  ⟨a, (h.toOp_eq o a ha k hk).symm ▸ ha, hk⟩

/-- So are those out of it. -/
theorem Cb.Sound.isDep_of_depOut (h : cb.Sound) (ha : a ∈ (cb.oper o).actions)
    (hk : k ∈ a.depOut) : cb.IsDep k :=
  (h.depOut k).2 ⟨a, (h.fromOp_eq o a ha k hk).symm ▸ ha, hk⟩

/-- A state with the same places and no wider bounds keeps the invariant. -/
theorem Inv.narrows (h : Inv cb s) (hn : Narrows s s') : Inv cb s' where
  upper k hk hi hto := hn.upperDone (h.upper k hk hi (hn.scheduled _ ▸ hto))
  lower k hk hi hfrom := hn.lowerDone (h.lower k hk hi (hn.scheduled _ ▸ hfrom))
  holds k hk hi hfrom hto := by
    have hold := h.holds k hk hi (hn.scheduled _ ▸ hfrom) (hn.scheduled _ ▸ hto)
    simpa only [DepHolds, hn.cycle, hn.slot] using hold

/-! ### Scheduling -/

/-- Marking a dependence resolved changes no bound and no schedule. -/
theorem narrows_resolveIn (h : resolveIn cb s k = .ok s') : Narrows s s' := by
  rw [resolveIn] at h
  split_ifs at h
  · exact Except.ok.inj h ▸ Narrows.refl s
  · exact Except.ok.inj h ▸ narrows_update rfl rfl rfl (fun _ hp ↦ hp) fun _ hp ↦ hp
  · exact Except.ok.inj h ▸ narrows_update rfl rfl rfl (fun _ hp ↦ hp) fun _ hp ↦ hp

/-- Updating along a dependence into the operation tightens the bound of its source. -/
theorem updateIn_spec (hhard : (cb.dep k).hardDep = true) (h : updateIn cb s k = .ok s') :
    Narrows s s' ∧ ((cb.dep k).ignore = false → UpperDone cb k s') := by
  rw [updateIn] at h
  split_ifs at h with hignore
  · exact ⟨Except.ok.inj h ▸ Narrows.refl s, fun hno ↦ by simp [hignore] at hno⟩
  · obtain ⟨hn, hdone⟩ := updateUpperBounds_spec hhard h
    exact ⟨hn, fun _ ↦ hdone⟩

/-- Updating along one out of it tightens the bound of its sink. -/
theorem updateOut_spec (hhard : (cb.dep k).hardDep = true) (h : updateOut cb s k = .ok s') :
    Narrows s s' ∧ ((cb.dep k).ignore = false → LowerDone cb k s') := by
  rw [updateOut] at h
  split_ifs at h with hignore
  · exact ⟨Except.ok.inj h ▸ Narrows.refl s, fun hno ↦ by simp [hignore] at hno⟩
  · obtain ⟨s₁, h₁, h₂⟩ := Run.bind_eq_ok.1 h
    obtain ⟨hn, hdone⟩ := updateLowerBounds_spec hhard h₂
    exact ⟨(narrows_resolveIn h₁).trans hn, fun _ ↦ hdone⟩

/-- What the dependences of an action have after `SM_update_adjacent_bounds`. -/
def ActionDone (cb : Cb) (a : RegAction) (s : State) : Prop :=
  (∀ k ∈ a.depIn, (cb.dep k).ignore = false → UpperDone cb k s) ∧
    ∀ k ∈ a.depOut, (cb.dep k).ignore = false → LowerDone cb k s

/-- `SM_update_adjacent_bounds` tightens the bounds of all neighbours of an operation. -/
theorem updateAdjacentBounds_spec (hcb : cb.Sound) (h : updateAdjacentBounds cb s o = .ok s') :
    Narrows s s' ∧ ∀ a ∈ (cb.oper o).actions, ActionDone cb a s' := by
  refine Run.foldlM_spec (R := Narrows) (P := ActionDone cb) Narrows.refl Narrows.trans
    (fun hn hdone ↦ ⟨fun k hk hi ↦ hn.upperDone (hdone.1 k hk hi),
      fun k hk hi ↦ hn.lowerDone (hdone.2 k hk hi)⟩) (fun a ha s₁ s₂ hrun ↦ ?_) h
  obtain ⟨s₃, hin, hout⟩ := Run.bind_eq_ok.1 hrun
  obtain ⟨hn, hupper⟩ := Run.foldlM_spec (R := Narrows)
    (P := fun k s ↦ (cb.dep k).ignore = false → UpperDone cb k s) Narrows.refl Narrows.trans
    (fun hn hdone hi ↦ hn.upperDone (hdone hi))
    (fun k hk _ _ hk' ↦ updateIn_spec (hcb.hardDep k (hcb.isDep_of_depIn ha hk)) hk') hin
  obtain ⟨hn', hlower⟩ := Run.foldlM_spec (R := Narrows)
    (P := fun k s ↦ (cb.dep k).ignore = false → LowerDone cb k s) Narrows.refl Narrows.trans
    (fun hn hdone hi ↦ hn.lowerDone (hdone hi))
    (fun k hk _ _ hk' ↦ updateOut_spec (hcb.hardDep k (hcb.isDep_of_depOut ha hk)) hk') hout
  exact ⟨hn.trans hn', fun k hk hi ↦ hn'.upperDone (hupper k hk hi), hlower⟩

/-! ### Positions within the bounds -/

/-- A slot that fits `unsigned short` does not get smaller when it is stored. -/
theorem le_toSlot {n : ℤ} (h : n ≤ 65535) : n ≤ ((toSlot n : ℕ) : ℤ) := by
  rw [toSlot]
  dsimp only
  omega

/-- A slot that is not negative does not get larger. -/
theorem toSlot_le {n : ℤ} (h : 0 ≤ n) : ((toSlot n : ℕ) : ℤ) ≤ n := by
  rw [toSlot]
  dsimp only
  omega

/-- The slot of the alternative that is taken was found by the search of its table. -/
theorem firstAlternative_find {one : Bool} {minSlot maxSlot slot : Slot} {n alt : ℕ}
    {ts : List TableSearch} (h : firstAlternative one minSlot maxSlot n ts = some (alt, slot)) :
    ∃ k t, alt = n + k ∧ ts[k]? = some t ∧ t.find minSlot maxSlot = some slot := by
  induction ts generalizing n with
  | nil => simp [firstAlternative] at h
  | cons t ts ih =>
    rw [firstAlternative] at h
    split at h
    · rename_i slot' hfind
      obtain ⟨rfl, rfl⟩ := Prod.mk.inj (Option.some.inj h)
      exact ⟨0, t, rfl, rfl, hfind⟩
    · split_ifs at h
      obtain ⟨k, t', hk, ht', hfind⟩ := ih h
      exact ⟨k + 1, t', by omega, by simpa using ht', hfind⟩

/-- Dependences of an operation on itself fit the interval. -/
theorem selfDepsFit_spec {ks : List ℕ} (h : selfDepsFit cb o ks = .ok true) :
    ∀ k ∈ ks, (cb.dep k).omega ≠ 0 → (cb.dep k).ignore = false → (cb.dep k).fromOp = o →
      (cb.dep k).minDelay ≤ (cb.dep k).omega * cb.ii := by
  induction ks with
  | nil => simp
  | cons k ks ih =>
    intro j hj homega hignore hfrom
    rw [selfDepsFit] at h
    split_ifs at h with hskip
    · rcases List.mem_cons.1 hj with rfl | hj
      · simp [homega, hignore, hfrom] at hskip
      · exact ih h j hj homega hignore hfrom
    · obtain ⟨distance, hdistance, h⟩ := Run.bind_eq_ok.1 h
      obtain ⟨delay, hdelay, h⟩ := Run.bind_eq_ok.1 h
      have hdistance' := (int32_eq_ok.1 hdistance).2
      have hdelay' := (int32_eq_ok.1 hdelay).2
      split_ifs at h with hpos
      · simp at h
      · rcases List.mem_cons.1 hj with rfl | hj
        · omega
        · exact ih h j hj homega hignore hfrom

/-- Where the bounds and the dependences on itself let operation `o` be scheduled. -/
structure Allowed (cb : Cb) (s : State) (o : ℕ) (p : ℤ × Slot) : Prop where
  scheduled : (s o).scheduled = false
  upper : (s o).nosoftUpperBound.AdmitsUpper p
  lower : (s o).nosoftLowerBound.AdmitsLower p
  self : cb.moduloResources = true → ∀ a ∈ (cb.oper o).actions, ∀ k ∈ a.depIn,
    (cb.dep k).omega ≠ 0 → (cb.dep k).ignore = false → (cb.dep k).fromOp = o →
      (cb.dep k).minDelay ≤ (cb.dep k).omega * cb.ii

section Search

variable {issueTime earliestSlot latestSlot : ℤ} {testOnly b : Bool} {tables : List TableSearch}

/-- Operation `o` is scheduled at a slot within the range, which the search of the table of an
alternative found. -/
def Placed (cb : Cb) (s : State) (o : ℕ) (issueTime earliestSlot latestSlot : ℤ)
    (tables : List TableSearch) (s' : State) : Prop :=
  ∃ (alt : ℕ) (slot : Slot), commitOper cb s o issueTime alt slot = .ok s' ∧
    earliestSlot ≤ ((slot : ℕ) : ℤ) ∧ ((slot : ℕ) : ℤ) ≤ latestSlot ∧
    ∃ t, tables[alt]? = some t ∧ ∃ minSlot maxSlot, t.find minSlot maxSlot = some slot

/-- What is placed in a range of slots is placed in any wider one. -/
theorem Placed.mono {earliest latest : ℤ} (h : Placed cb s o issueTime earliestSlot latestSlot
    tables s') (hearliest : earliest ≤ earliestSlot) (hlatest : latestSlot ≤ latest) :
    Placed cb s o issueTime earliest latest tables s' := by
  obtain ⟨alt, slot, hcommit, hmin, hmax, hfind⟩ := h
  exact ⟨alt, slot, hcommit, hearliest.trans hmin, hmax.trans hlatest, hfind⟩

/-- Either nothing changes, as in a test or without room, or the operation is placed. -/
theorem placeOper_cases (hearliest : earliestSlot ≤ 65535) (hlatest : 0 ≤ latestSlot)
    (h : placeOper cb s o issueTime earliestSlot latestSlot testOnly tables = .ok (s', b)) :
    s' = s ∧ (b = true → testOnly = true) ∨
      b = true ∧ Placed cb s o issueTime earliestSlot latestSlot tables s' := by
  rw [placeOper] at h
  split at h
  · obtain ⟨rfl, rfl⟩ := Prod.mk.inj (Except.ok.inj h)
    exact Or.inl ⟨rfl, fun h ↦ absurd h Bool.false_ne_true⟩
  · rename_i alt slot hfirst
    split_ifs at h with htest
    · exact Or.inl ⟨(Prod.mk.inj (Except.ok.inj h)).1.symm, fun _ ↦ htest⟩
    · obtain ⟨s₁, hcommit, h⟩ := Run.bind_eq_ok.1 h
      obtain ⟨rfl, rfl⟩ := Prod.mk.inj (Except.ok.inj h)
      obtain ⟨k, t, hk, ht, hfind⟩ := firstAlternative_find hfirst
      rw [Nat.zero_add] at hk
      subst hk
      obtain ⟨hmin, hmax⟩ := t.within _ _ _ hfind
      have hmin' := le_toSlot hearliest
      have hmax' := toSlot_le hlatest
      rw [Fin.le_def] at hmin hmax
      exact Or.inr ⟨rfl, alt, slot, hcommit, by omega, by omega, t, ht, _, _, hfind⟩

/-- The same of the whole search, which also tests the dependences of the operation on itself. -/
theorem searchOper_cases (hearliest : earliestSlot ≤ 65535) (hlatest : 0 ≤ latestSlot)
    (h : searchOper cb s o issueTime earliestSlot latestSlot testOnly tables = .ok (s', b)) :
    s' = s ∧ (b = true → testOnly = true) ∨
      b = true ∧ Placed cb s o issueTime earliestSlot latestSlot tables s' ∧
        (cb.moduloResources = true →
          selfDepsFit cb o ((cb.oper o).actions.flatMap RegAction.depIn) = .ok true) := by
  have hfail : (s, false) = (s', b) → s' = s ∧ (b = true → testOnly = true) := by
    intro heq
    obtain ⟨rfl, rfl⟩ := Prod.mk.inj heq
    exact ⟨rfl, fun h ↦ absurd h Bool.false_ne_true⟩
  rw [searchOper] at h
  split_ifs at h with hrange hmodulo
  · exact Or.inl (hfail (Except.ok.inj h))
  · obtain ⟨fit, hfit, h⟩ := Run.bind_eq_ok.1 h
    split_ifs at h with hyes
    · subst hyes
      exact (placeOper_cases hearliest hlatest h).imp_right fun hplaced ↦
        ⟨hplaced.1, hplaced.2, fun _ ↦ hfit⟩
    · exact Or.inl (hfail (Except.ok.inj h))
  · exact (placeOper_cases hearliest hlatest h).imp_right fun hplaced ↦
      ⟨hplaced.1, hplaced.2, fun hm ↦ absurd hm hmodulo⟩

/-- A scheduling call leaves the state as it is or schedules the operation where that is allowed. -/
theorem scheduleOper_cases (hearliest : earliestSlot ≤ 65535) (hlatest : 0 ≤ latestSlot)
    (h : scheduleOper cb s o issueTime earliestSlot latestSlot testOnly tables = .ok (s', b)) :
    (s o).scheduled = false ∧ (s' = s ∧ (b = true → testOnly = true) ∨
      b = true ∧ Placed cb s o issueTime earliestSlot latestSlot tables s' ∧
        ∃ (alt : ℕ) (slot : Slot), commitOper cb s o issueTime alt slot = .ok s' ∧
          Allowed cb s o (issueTime, slot)) := by
  have hlower := (s o).nosoftLowerBound.slot.isLt
  have hfail : (s, false) = (s', b) → s' = s ∧ (b = true → testOnly = true) := by
    intro heq
    obtain ⟨rfl, rfl⟩ := Prod.mk.inj heq
    exact ⟨rfl, fun h ↦ absurd h Bool.false_ne_true⟩
  rw [scheduleOper] at h
  split_ifs at h with hscheduled hlo hhi
  · exact ⟨by simpa using hscheduled, Or.inl (hfail (Except.ok.inj h))⟩
  · exact ⟨by simpa using hscheduled, Or.inl (hfail (Except.ok.inj h))⟩
  refine ⟨by simpa using hscheduled, ?_⟩
  have hmin' : earliestSlot ≤ adjustEarliest (s o).nosoftLowerBound issueTime earliestSlot := by
    rw [adjustEarliest]
    split_ifs <;> omega
  have hmax' : adjustLatest (s o).nosoftUpperBound issueTime latestSlot ≤ latestSlot := by
    rw [adjustLatest]
    split_ifs <;> omega
  rcases searchOper_cases (by rw [adjustEarliest]; split_ifs <;> omega)
    (by rw [adjustLatest]; split_ifs <;> omega) h with hsame | ⟨hb, hplaced, hself⟩
  · exact Or.inl hsame
  refine Or.inr ⟨hb, hplaced.mono hmin' hmax', ?_⟩
  obtain ⟨alt, slot, hcommit, hmin, hmax, -⟩ := hplaced
  refine ⟨alt, slot, hcommit, by simpa using hscheduled, ?_, ?_, fun hmodulo a ha k hk ↦ ?_⟩
  · rw [Bound.AdmitsUpper, Fin.le_def]
    rw [adjustLatest] at hmax
    dsimp only
    split_ifs at hmax <;> omega
  · rw [Bound.AdmitsLower, Fin.le_def]
    rw [adjustEarliest] at hmin
    dsimp only
    split_ifs at hmin <;> omega
  · exact selfDepsFit_spec (hself hmodulo) k (List.mem_flatMap.2 ⟨a, ha, hk⟩)

end Search

/-! ### Every call keeps the invariant -/

/-- The operation as scheduled. -/
def place (s : State) (o : ℕ) (p : ℤ × Slot) (alt : ℕ) : State :=
  Function.update s o { s o with
    scheduled := true
    schedCycle := p.1
    schedSlot := p.2
    altChosen := some alt }

section Place

variable {p : ℤ × Slot} {alt : ℕ}

/-- Placing an operation changes no other one. -/
theorem place_of_ne {o' : ℕ} (h : o' ≠ o) : place s o p alt o' = s o' :=
  Function.update_of_ne h _ _

/-- Placing an operation keeps the bounds of all. -/
theorem nosoftUpperBound_place (s : State) (o : ℕ) (p : ℤ × Slot) (alt o' : ℕ) :
    (place s o p alt o').nosoftUpperBound = (s o').nosoftUpperBound := by
  by_cases h : o' = o
  · subst h
    rw [place, Function.update_self]
  · rw [place_of_ne h]

theorem nosoftLowerBound_place (s : State) (o : ℕ) (p : ℤ × Slot) (alt o' : ℕ) :
    (place s o p alt o').nosoftLowerBound = (s o').nosoftLowerBound := by
  by_cases h : o' = o
  · subst h
    rw [place, Function.update_self]
  · rw [place_of_ne h]

/-- The bounds of other operations are as tight as before. -/
theorem upperDone_place (h : UpperDone cb k s) (hto : (cb.dep k).toOp ≠ o) :
    UpperDone cb k (place s o p alt) := by
  intro q hq
  rw [nosoftUpperBound_place] at hq
  rw [UpperMet, place_of_ne hto]
  exact h q hq

theorem lowerDone_place (h : LowerDone cb k s) (hfrom : (cb.dep k).fromOp ≠ o) :
    LowerDone cb k (place s o p alt) := by
  intro q hq
  rw [nosoftLowerBound_place] at hq
  rw [LowerMet, place_of_ne hfrom]
  exact h q hq

/-- The dependences of an operation hold where the operation is allowed. -/
theorem depHolds_place (hcb : cb.Sound) (hcarried : cb.SelfDepsCarried) (h : Inv cb s) (hallowed : Allowed cb s o p)
    (hk : cb.IsDep k) (hignore : (cb.dep k).ignore = false)
    (hfrom : (place s o p alt (cb.dep k).fromOp).scheduled = true)
    (hto : (place s o p alt (cb.dep k).toOp).scheduled = true) :
    DepHolds cb (place s o p alt) k := by
  by_cases hf : (cb.dep k).fromOp = o
  · by_cases ht : (cb.dep k).toOp = o
    · -- A dependence of the operation on itself, in a later iteration.
      have homega := (hcb.omega_nonneg k hk).lt_of_ne'
        (hcarried k hk hignore (hf.trans ht.symm))
      have hmodulo : cb.moduloResources = true := by
        by_contra hno
        have := hcb.omega_eq (by simpa using hno) k hk
        omega
      obtain ⟨a, ha, hmem⟩ := hk
      have hself := hallowed.self hmodulo a (ht ▸ ha) k hmem homega.ne' hignore hf
      have hii := mul_pos homega (lt_of_lt_of_le zero_lt_one hcb.one_le_ii)
      rw [DepHolds, hf, ht]
      refine ⟨by omega, fun _ _ ↦ Or.inl ?_⟩
      dsimp only
      omega
    · have hmet := h.upper k hk hignore (by rwa [place_of_ne ht] at hto) p
        (hf.symm ▸ hallowed.upper)
      refine depHolds_of_upperMet ?_
      rw [UpperMet, place_of_ne ht, hf, place, Function.update_self]
      exact hmet
  · by_cases ht : (cb.dep k).toOp = o
    · have hmet := h.lower k hk hignore (by rwa [place_of_ne hf] at hfrom) p
        (ht.symm ▸ hallowed.lower)
      refine depHolds_of_lowerMet ?_
      rw [LowerMet, place_of_ne hf, ht, place, Function.update_self]
      exact hmet
    · rw [place_of_ne hf] at hfrom
      rw [place_of_ne ht] at hto
      rw [DepHolds, place_of_ne hf, place_of_ne ht]
      exact h.holds k hk hignore hfrom hto

/-- `SM_commit_oper` places the operation and then only narrows bounds. -/
theorem commitOper_spec (hcb : cb.Sound) (hrun : commitOper cb s o p.1 alt p.2 = .ok s') :
    ∃ s₁, Narrows (place s o p alt) s₁ ∧ Narrows s₁ s' ∧
      ∀ a ∈ (cb.oper o).actions, ActionDone cb a s₁ := by
  obtain ⟨s₁, hadjacent, hlast⟩ := Run.bind_eq_ok.1 hrun
  obtain ⟨hn, hactions⟩ := updateAdjacentBounds_spec hcb hadjacent
  exact ⟨s₁, hn, Except.ok.inj hlast ▸
    narrows_update rfl rfl rfl (fun _ hp ↦ hp) fun _ hp ↦ hp, hactions⟩

/-- So the operation is where it was placed, and the others are where they were. -/
theorem commitOper_places (hcb : cb.Sound) (hrun : commitOper cb s o p.1 alt p.2 = .ok s') :
    ((s' o).scheduled = true ∧ (s' o).schedCycle = p.1 ∧ (s' o).schedSlot = p.2) ∧
      ∀ o' ≠ o, (s' o').scheduled = (s o').scheduled ∧ (s' o').schedCycle = (s o').schedCycle ∧
        (s' o').schedSlot = (s o').schedSlot := by
  obtain ⟨s₁, hn₁, hn₂, -⟩ := commitOper_spec hcb hrun
  have hn := hn₁.trans hn₂
  refine ⟨?_, fun o' ho' ↦ ?_⟩
  · rw [hn.scheduled, hn.cycle, hn.slot, place, Function.update_self]
    exact ⟨rfl, rfl, rfl⟩
  · rw [hn.scheduled, hn.cycle, hn.slot, place_of_ne ho']
    exact ⟨rfl, rfl, rfl⟩

/-- Committing an operation in a place that its bounds allow keeps the invariant. -/
theorem Inv.commitOper (hcb : cb.Sound) (hcarried : cb.SelfDepsCarried) (h : Inv cb s)
    (hallowed : Allowed cb s o p)
    (hrun : commitOper cb s o p.1 alt p.2 = .ok s') : Inv cb s' := by
  obtain ⟨s₁, hn₁, hn₂, hactions⟩ := commitOper_spec hcb hrun
  have hn : Narrows (place s o p alt) s' := hn₁.trans hn₂
  refine ⟨fun k hk hi hto ↦ ?_, fun k hk hi hfrom ↦ ?_, fun k hk hi hfrom hto ↦ ?_⟩
  · by_cases ht : (cb.dep k).toOp = o
    · obtain ⟨a, ha, hmem⟩ := hk
      exact hn₂.upperDone ((hactions a (ht ▸ ha)).1 k hmem hi)
    · rw [hn.scheduled, place_of_ne ht] at hto
      exact hn.upperDone (upperDone_place (h.upper k hk hi hto) ht)
  · by_cases hf : (cb.dep k).fromOp = o
    · obtain ⟨a, ha, hmem⟩ := (hcb.depOut k).1 hk
      exact hn₂.lowerDone ((hactions a (hf ▸ ha)).2 k hmem hi)
    · rw [hn.scheduled, place_of_ne hf] at hfrom
      exact hn.lowerDone (lowerDone_place (h.lower k hk hi hfrom) hf)
  · rw [hn.scheduled] at hfrom hto
    have hplace := depHolds_place hcb hcarried h hallowed hk hi hfrom hto
    simpa only [DepHolds, hn.cycle, hn.slot] using hplace

end Place

/-- An operation that is no longer scheduled constrains none. -/
theorem Inv.update_unscheduled (h : Inv cb s) {x : Oper} (hx : x.scheduled = false)
    (hupper : x.nosoftUpperBound = (s o).nosoftUpperBound)
    (hlower : x.nosoftLowerBound = (s o).nosoftLowerBound) : Inv cb (Function.update s o x) := by
  have hne : ∀ {o' : ℕ}, (Function.update s o x o').scheduled = true → o' ≠ o := by
    rintro o' hs rfl
    rw [Function.update_self, hx] at hs
    exact absurd hs Bool.false_ne_true
  have hupper' : ∀ o', (Function.update s o x o').nosoftUpperBound = (s o').nosoftUpperBound := by
    intro o'
    by_cases ho : o' = o
    · subst ho
      rw [Function.update_self, hupper]
    · rw [Function.update_of_ne ho]
  have hlower' : ∀ o', (Function.update s o x o').nosoftLowerBound = (s o').nosoftLowerBound := by
    intro o'
    by_cases ho : o' = o
    · subst ho
      rw [Function.update_self, hlower]
    · rw [Function.update_of_ne ho]
  refine ⟨fun k hk hi hto p hp ↦ ?_, fun k hk hi hfrom p hp ↦ ?_, fun k hk hi hfrom hto ↦ ?_⟩
  · have ht := hne hto
    rw [Function.update_of_ne ht] at hto
    rw [hupper'] at hp
    rw [UpperMet, Function.update_of_ne ht]
    exact h.upper k hk hi hto p hp
  · have hf := hne hfrom
    rw [Function.update_of_ne hf] at hfrom
    rw [hlower'] at hp
    rw [LowerMet, Function.update_of_ne hf]
    exact h.lower k hk hi hfrom p hp
  · have hf := hne hfrom
    have ht := hne hto
    rw [Function.update_of_ne hf] at hfrom
    rw [Function.update_of_ne ht] at hto
    rw [DepHolds, Function.update_of_ne hf, Function.update_of_ne ht]
    exact h.holds k hk hi hfrom hto

/-- No operation moves, and the invariant is kept. -/
structure Keeps (cb : Cb) (s s' : State) : Prop where
  scheduled : ∀ o, (s' o).scheduled = (s o).scheduled
  cycle : ∀ o, (s' o).schedCycle = (s o).schedCycle
  slot : ∀ o, (s' o).schedSlot = (s o).schedSlot
  inv : Inv cb s → Inv cb s'

theorem Keeps.refl (s : State) : Keeps cb s s :=
  ⟨fun _ ↦ rfl, fun _ ↦ rfl, fun _ ↦ rfl, id⟩

theorem Keeps.trans {s'' : State} (h : Keeps cb s s') (h' : Keeps cb s' s'') : Keeps cb s s'' where
  scheduled o := (h'.scheduled o).trans (h.scheduled o)
  cycle o := (h'.cycle o).trans (h.cycle o)
  slot o := (h'.slot o).trans (h.slot o)
  inv hinv := h'.inv (h.inv hinv)

/-- What narrows bounds keeps the schedule. -/
theorem Narrows.keeps (h : Narrows s s') : Keeps cb s s' :=
  ⟨h.scheduled, h.cycle, h.slot, fun hinv ↦ hinv.narrows h⟩

/-! ### Rebuilding bounds -/

/-- A change to operation `o` that does not move it, after which its bounds narrow, keeps the
invariant if a bound that changed is built from all dependences again. -/
theorem keeps_rebuild {x : Oper} (hn : Narrows (Function.update s o x) s')
    (hscheduled : x.scheduled = (s o).scheduled) (hcycle : x.schedCycle = (s o).schedCycle)
    (hslot : x.schedSlot = (s o).schedSlot)
    (hupper : x.nosoftUpperBound = (s o).nosoftUpperBound ∨ ∀ k, cb.IsDep k →
      (cb.dep k).fromOp = o → (cb.dep k).ignore = false → (s' (cb.dep k).toOp).scheduled = true →
      UpperDone cb k s')
    (hlower : x.nosoftLowerBound = (s o).nosoftLowerBound ∨ ∀ k, cb.IsDep k →
      (cb.dep k).toOp = o → (cb.dep k).ignore = false → (s' (cb.dep k).fromOp).scheduled = true →
      LowerDone cb k s') : Keeps cb s s' := by
  have hplace : ∀ o', (s' o').scheduled = (s o').scheduled ∧
      (s' o').schedCycle = (s o').schedCycle ∧ (s' o').schedSlot = (s o').schedSlot := by
    intro o'
    rw [hn.scheduled, hn.cycle, hn.slot]
    by_cases ho : o' = o
    · subst ho
      rw [Function.update_self]
      exact ⟨hscheduled, hcycle, hslot⟩
    · rw [Function.update_of_ne ho]
      exact ⟨rfl, rfl, rfl⟩
  refine ⟨fun o' ↦ (hplace o').1, fun o' ↦ (hplace o').2.1, fun o' ↦ (hplace o').2.2, fun h ↦
    ⟨fun k hk hi hto ↦ ?_, fun k hk hi hfrom ↦ ?_, fun k hk hi hfrom hto ↦ ?_⟩⟩
  · by_cases hf : (cb.dep k).fromOp = o ∧ x.nosoftUpperBound ≠ (s o).nosoftUpperBound
    · exact hupper.resolve_left hf.2 k hk hf.1 hi hto
    · intro p hp
      have hsame : (Function.update s o x (cb.dep k).fromOp).nosoftUpperBound =
          (s (cb.dep k).fromOp).nosoftUpperBound := by
        by_cases hf' : (cb.dep k).fromOp = o
        · rw [hf', Function.update_self]
          exact not_not.1 fun hne ↦ hf ⟨hf', hne⟩
        · rw [Function.update_of_ne hf']
      rw [UpperMet, (hplace _).2.1, (hplace _).2.2]
      exact h.upper k hk hi ((hplace _).1 ▸ hto) p (hsame ▸ hn.upper _ p hp)
  · by_cases ht : (cb.dep k).toOp = o ∧ x.nosoftLowerBound ≠ (s o).nosoftLowerBound
    · exact hlower.resolve_left ht.2 k hk ht.1 hi hfrom
    · intro p hp
      have hsame : (Function.update s o x (cb.dep k).toOp).nosoftLowerBound =
          (s (cb.dep k).toOp).nosoftLowerBound := by
        by_cases ht' : (cb.dep k).toOp = o
        · rw [ht', Function.update_self]
          exact not_not.1 fun hne ↦ ht ⟨ht', hne⟩
        · rw [Function.update_of_ne ht']
      rw [LowerMet, (hplace _).2.1, (hplace _).2.2]
      exact h.lower k hk hi ((hplace _).1 ▸ hfrom) p (hsame ▸ hn.lower _ p hp)
  · rw [DepHolds, (hplace _).2.1, (hplace _).2.1, (hplace _).2.2, (hplace _).2.2]
    exact h.holds k hk hi ((hplace _).1 ▸ hfrom) ((hplace _).1 ▸ hto)

/-- A bound that is computed anew is tightened along each dependence whose end is scheduled. -/
theorem recalculateOut_spec (hhard : (cb.dep k).hardDep = true)
    (h : recalculateOut cb s k = .ok s') : Narrows s s' ∧ ((cb.dep k).ignore = false →
      (s' (cb.dep k).toOp).scheduled = true → UpperDone cb k s') := by
  rw [recalculateOut] at h
  split_ifs at h with hignore hno
  · exact ⟨Except.ok.inj h ▸ Narrows.refl s, fun hi ↦ by simp [hignore] at hi⟩
  · obtain rfl := Except.ok.inj h
    exact ⟨Narrows.refl s, fun _ hyes ↦ by simp [hyes] at hno⟩
  · obtain ⟨hn, hdone⟩ := updateUpperBounds_spec hhard h
    exact ⟨hn, fun _ _ ↦ hdone⟩

/-- The same along the dependences into the operation. -/
theorem recalculateIn_spec (hhard : (cb.dep k).hardDep = true)
    (h : recalculateIn cb s k = .ok s') : Narrows s s' ∧ ((cb.dep k).ignore = false →
      (s' (cb.dep k).fromOp).scheduled = true → LowerDone cb k s') := by
  rw [recalculateIn] at h
  split_ifs at h with hignore hno
  · exact ⟨Except.ok.inj h ▸ Narrows.refl s, fun hi ↦ by simp [hignore] at hi⟩
  · obtain rfl := Except.ok.inj h
    exact ⟨Narrows.refl s, fun _ hyes ↦ by simp [hyes] at hno⟩
  · obtain ⟨hn, hdone⟩ := updateLowerBounds_spec hhard h
    exact ⟨hn, fun _ _ ↦ hdone⟩

/-- `SM_recalculate_upper_bound` of an operation leaves the schedule as it is. -/
theorem keeps_recalculateUpperBound (hcb : cb.Sound)
    (h : recalculateUpperBound cb s o = .ok s') : Keeps cb s s' := by
  obtain ⟨hn, hdone⟩ := Run.foldlM_spec (R := Narrows)
    (P := fun (a : RegAction) s ↦ ∀ k ∈ a.depOut, (cb.dep k).ignore = false →
      (s (cb.dep k).toOp).scheduled = true → UpperDone cb k s) Narrows.refl Narrows.trans
    (fun hn hdone k hk hi hto ↦ hn.upperDone (hdone k hk hi (hn.scheduled _ ▸ hto)))
    (fun a ha _ _ hrun ↦ Run.foldlM_spec (R := Narrows) Narrows.refl Narrows.trans
      (fun hn hdone hi hto ↦ hn.upperDone (hdone hi (hn.scheduled _ ▸ hto)))
      (fun k hk _ _ hk' ↦ recalculateOut_spec (hcb.hardDep k (hcb.isDep_of_depOut ha hk)) hk')
      hrun) h
  refine keeps_rebuild hn rfl rfl rfl (Or.inr ?_) (Or.inl rfl)
  intro k hk hfrom hi hto
  obtain ⟨a, ha, hmem⟩ := (hcb.depOut k).1 hk
  exact hdone a (hfrom ▸ ha) k hmem hi hto

/-- So does `SM_recalculate_lower_bound`. -/
theorem keeps_recalculateLowerBound (hcb : cb.Sound)
    (h : recalculateLowerBound cb s o = .ok s') : Keeps cb s s' := by
  obtain ⟨hn, hdone⟩ := Run.foldlM_spec (R := Narrows)
    (P := fun (a : RegAction) s ↦ ∀ k ∈ a.depIn, (cb.dep k).ignore = false →
      (s (cb.dep k).fromOp).scheduled = true → LowerDone cb k s) Narrows.refl Narrows.trans
    (fun hn hdone k hk hi hfrom ↦ hn.lowerDone (hdone k hk hi (hn.scheduled _ ▸ hfrom)))
    (fun a ha _ _ hrun ↦ Run.foldlM_spec (R := Narrows) Narrows.refl Narrows.trans
      (fun hn hdone hi hfrom ↦ hn.lowerDone (hdone hi (hn.scheduled _ ▸ hfrom)))
      (fun k hk _ _ hk' ↦ recalculateIn_spec (hcb.hardDep k (hcb.isDep_of_depIn ha hk)) hk')
      hrun) h
  refine keeps_rebuild hn rfl rfl rfl (Or.inl rfl) (Or.inr ?_)
  intro k hk hto hi hfrom
  obtain ⟨a, ha, hmem⟩ := hk
  exact hdone a (hto ▸ ha) k hmem hi hfrom

/-! ### Unscheduling -/

/-- Releasing a dependence leaves the schedule as it is. -/
theorem keeps_releaseIn (hcb : cb.Sound) (h : releaseIn cb s k = .ok s') : Keeps cb s s' := by
  rw [releaseIn] at h
  split_ifs at h
  · exact Except.ok.inj h ▸ Keeps.refl s
  · exact keeps_recalculateUpperBound hcb h
  · exact Except.ok.inj h ▸ Keeps.refl s

/-- Taking the mark of a dependence back changes no bound. -/
theorem narrows_unresolveIn (cb : Cb) (s : State) (k : ℕ) : Narrows s (unresolveIn cb s k) := by
  rw [unresolveIn]
  split_ifs
  · exact narrows_update rfl rfl rfl (fun _ hp ↦ hp) fun _ hp ↦ hp
  · exact Narrows.refl s

theorem keeps_releaseOut (hcb : cb.Sound) (h : releaseOut cb s k = .ok s') : Keeps cb s s' := by
  rw [releaseOut] at h
  split_ifs at h
  · exact Except.ok.inj h ▸ Keeps.refl s
  · exact (narrows_unresolveIn cb s k).keeps.trans (keeps_recalculateLowerBound hcb h)
  · exact Except.ok.inj h ▸ (narrows_unresolveIn cb s k).keeps

/-- Entering an operation in the queue of resolved ones changes no bound. -/
theorem narrows_enqueueResolved (h : enqueueResolved cb s o = .ok s') : Narrows s s' := by
  rw [enqueueResolved] at h
  split_ifs at h
  · exact Except.ok.inj h ▸ narrows_update rfl rfl rfl (fun _ hp ↦ hp) fun _ hp ↦ hp
  · exact Except.ok.inj h ▸ Narrows.refl s

/-- A loop of steps that keep the schedule keeps it. -/
theorem keeps_foldlM {ι : Type} {f : State → ι → Run State} {l : List ι}
    (hstep : ∀ i ∈ l, ∀ {s s'}, f s i = .ok s' → Keeps cb s s') (h : l.foldlM f s = .ok s') :
    Keeps cb s s' :=
  (Run.foldlM_spec (P := fun _ _ ↦ True) Keeps.refl Keeps.trans (fun _ _ ↦ trivial)
    (fun i hi _ _ hrun ↦ ⟨hstep i hi hrun, trivial⟩) h).1

/-- `SM_recalculate_adjacent_bounds` leaves the schedule as it is. -/
theorem keeps_recalculateAdjacentBounds (hcb : cb.Sound)
    (h : recalculateAdjacentBounds cb s o = .ok s') : Keeps cb s s' := by
  rw [recalculateAdjacentBounds] at h
  split_ifs at h
  obtain ⟨s₁, hactions, h⟩ := Run.bind_eq_ok.1 h
  obtain ⟨s₂, hupper, h⟩ := Run.bind_eq_ok.1 h
  obtain ⟨s₃, hlower, h⟩ := Run.bind_eq_ok.1 h
  have h₁ : Keeps cb s s₁ := by
    refine keeps_foldlM (fun a _ s₁ s₂ hrun ↦ ?_) hactions
    obtain ⟨s₃, hin, hout⟩ := Run.bind_eq_ok.1 hrun
    exact (keeps_foldlM (fun _ _ _ _ hk ↦ keeps_releaseIn hcb hk) hin).trans
      (keeps_foldlM (fun _ _ _ _ hk ↦ keeps_releaseOut hcb hk) hout)
  exact ((h₁.trans (keeps_recalculateUpperBound hcb hupper)).trans
    (keeps_recalculateLowerBound hcb hlower)).trans (narrows_enqueueResolved h).keeps

/-- Only the operation itself is changed beside the bounds. -/
theorem unscheduleOper_cases (hcb : cb.Sound) (hrun : unscheduleOper cb s o = .ok s') :
    (s o).scheduled = true ∧ ∃ s₁,
      Keeps cb (Function.update s o { s o with scheduled := false }) s₁ ∧
      s' = Function.update s₁ o { s₁ o with
        schedCycle := -maxCycle
        schedSlot := maxSlot
        altChosen := none } := by
  rw [Sm.unscheduleOper] at hrun
  split_ifs at hrun with hscheduled
  obtain ⟨s₁, hadjacent, hlast⟩ := Run.bind_eq_ok.1 hrun
  exact ⟨by simpa using hscheduled, s₁, keeps_recalculateAdjacentBounds hcb hadjacent,
    (Except.ok.inj hlast).symm⟩

/-- So the operation is nowhere, and the others are where they were. -/
theorem unscheduleOper_places (hcb : cb.Sound) (hrun : unscheduleOper cb s o = .ok s') :
    ((s' o).scheduled = false ∧ (s' o).schedSlot = maxSlot) ∧
      ∀ o' ≠ o, (s' o').scheduled = (s o').scheduled ∧ (s' o').schedCycle = (s o').schedCycle ∧
        (s' o').schedSlot = (s o').schedSlot := by
  obtain ⟨-, s₁, hkeeps, rfl⟩ := unscheduleOper_cases hcb hrun
  refine ⟨?_, fun o' ho' ↦ ?_⟩
  · rw [Function.update_self]
    refine ⟨?_, rfl⟩
    dsimp only
    rw [hkeeps.scheduled, Function.update_self]
  · rw [Function.update_of_ne ho', hkeeps.scheduled, hkeeps.cycle, hkeeps.slot,
      Function.update_of_ne ho']
    exact ⟨rfl, rfl, rfl⟩

/-- Unscheduling an operation keeps the invariant. -/
theorem Inv.unscheduleOper (hcb : cb.Sound) (h : Inv cb s) (hrun : unscheduleOper cb s o = .ok s') :
    Inv cb s' := by
  obtain ⟨-, s₁, hkeeps, rfl⟩ := unscheduleOper_cases hcb hrun
  have hoff : (s₁ o).scheduled = false := by
    rw [hkeeps.scheduled, Function.update_self]
  have h₁ : Inv cb s₁ := hkeeps.inv (h.update_unscheduled rfl rfl rfl)
  exact h₁.update_unscheduled hoff rfl rfl

/-! ### Runs of calls -/

/-- Each call keeps the invariant. -/
theorem Inv.exec (hcb : cb.Sound) (hcarried : cb.SelfDepsCarried) (h : Inv cb s) {c : Call}
    (hrange : c.InRange) (hrun : c.exec cb s = .ok s') : Inv cb s' := by
  cases c with
  | schedule o issueTime earliestSlot latestSlot testOnly tables =>
    obtain ⟨⟨s₁, b⟩, hschedule, hlast⟩ := Run.bind_eq_ok.1 hrun
    obtain rfl : s₁ = s' := Except.ok.inj hlast
    obtain ⟨-, ⟨rfl, -⟩ | ⟨-, -, alt, slot, hcommit, hallowed⟩⟩ :=
      scheduleOper_cases hrange.1 hrange.2 hschedule
    · exact h
    · exact h.commitOper hcb hcarried hallowed hcommit
  | unschedule o => exact h.unscheduleOper hcb hrun

/-- So every run does. -/
theorem Inv.runCalls (hcb : cb.Sound) (hcarried : cb.SelfDepsCarried) {calls : List Call}
    (h : Inv cb s) (hrange : ∀ c ∈ calls, c.InRange) (hrun : runCalls cb calls s = .ok s') : Inv cb s' := by
  induction calls generalizing s with
  | nil => exact Except.ok.inj hrun ▸ h
  | cons c calls ih =>
    rw [Sm.runCalls, List.foldlM_cons] at hrun
    obtain ⟨s₁, hc, hrest⟩ := Run.bind_eq_ok.1 hrun
    exact ih (h.exec hcb hcarried (hrange c List.mem_cons_self) hc)
      (fun c' hc' ↦ hrange c' (List.mem_cons_of_mem c hc')) hrest

/-- Nothing is required of a state in which nothing is scheduled. -/
theorem inv_of_unscheduled (h : ∀ o, (s o).scheduled = false) : Inv cb s := by
  constructor <;> intros <;> simp_all

/-- Whatever calls a scheduler makes with slot ranges that contain a slot, the dependences between
the operations that are scheduled hold. -/
theorem runCalls_depHolds (cb : Cb) (hcb : cb.Sound) (hcarried : cb.SelfDepsCarried) (s : State)
    (hinit : ∀ o, (s o).scheduled = false) (calls : List Call) (hrange : ∀ c ∈ calls, c.InRange)
    (s' : State) (hrun : runCalls cb calls s = .ok s') (k : ℕ) (hk : cb.IsDep k)
    (hignore : (cb.dep k).ignore = false) (hfrom : (s' (cb.dep k).fromOp).scheduled = true)
    (hto : (s' (cb.dep k).toOp).scheduled = true) : DepHolds cb s' k :=
  ((inv_of_unscheduled hinit).runCalls hcb hcarried hrange hrun).holds k hk hignore hfrom hto

end Invariant

/-! ### Two operations -/

/-- A table with a slot for each of the four resources of a cycle. -/
def fourIssue : Rmap.SMTable where
  choices := [⟨[⟨[⟨1, 0⟩], Rmap.usages_single_ne⟩, ⟨[⟨2, 0⟩], Rmap.usages_other_ne⟩,
    ⟨[⟨4, 0⟩], List.cons_ne_nil _ _⟩, ⟨[⟨8, 0⟩], List.cons_ne_nil _ _⟩], List.cons_ne_nil _ _⟩]
  slotChoice := 0
  slotOptions := [0, 1, 2, 3]
  maxUsageOffset := 0
  exists_slotChoice := ⟨_, rfl, rfl⟩
  mapOffset_le := by decide
  maxUsageOffset_lt := Rmap.zero_lt_65536

/-- The search of a cycle in which the resources `used` are taken. -/
def searchCycle (used : BitVec 32) : TableSearch :=
  .ofTable [some used] (fun o ↦ o) fourIssue

/-- Operation 1 reads what operation 0 writes, in the same cycle if its slot is later, and operation
0 what operation 1 wrote in the last iteration. -/
def twoOpers (moduloResources : Bool) (back : List ℕ) : Cb where
  ii := 2
  moduloResources := moduloResources
  testOnlyOneAlt := false
  slackLoadsForMiss := false
  dep k := if k = 0 then ⟨0, 1, 0, 0, true, true, true, false⟩
    else ⟨1, 0, 1, 1, true, true, true, false⟩
  oper o :=
    if o = 0 then ⟨[⟨[], [0]⟩, ⟨back, []⟩], false, none, false⟩
    else if o = 1 then ⟨[⟨[0], []⟩, ⟨[], back⟩], false, none, false⟩
    else ⟨[], false, none, true⟩

/-- The operations before scheduling: as many unresolved dependences lead into one as `unresolved`
says. -/
def unplaced (unresolved : ℕ → ℕ) : State := fun o ↦ {
  scheduled := false
  schedCycle := -maxCycle
  schedSlot := maxSlot
  altChosen := none
  lowerBound := ⟨-maxCycle, 0, none⟩
  upperBound := ⟨maxCycle, maxSlot, none⟩
  nosoftLowerBound := ⟨-maxCycle, 0, none⟩
  nosoftUpperBound := ⟨maxCycle, maxSlot, none⟩
  numUnresolvedHardDepIn := unresolved o
  inDepInResolved := false }

/-- The graph of the two operations is consistent. -/
theorem sound_twoOpers : (twoOpers true [1]).Sound where
  toOp_eq o a ha k hk := by
    simp only [twoOpers] at ha ⊢
    split_ifs at ha <;> aesop
  fromOp_eq o a ha k hk := by
    simp only [twoOpers] at ha ⊢
    split_ifs at ha <;> aesop
  depOut k := by
    simp only [Cb.IsDep, twoOpers]
    split_ifs <;> aesop
  hardDep k _ := by
    simp only [twoOpers]
    split_ifs <;> rfl
  omega_nonneg k _ := by
    simp only [twoOpers]
    split_ifs <;> simp
  omega_eq h := by cases h
  one_le_ii := by simp [twoOpers]

/-- Operation 1 is scheduled in the slot after operation 0, which is then scheduled again one cycle
earlier. -/
def reschedule : List Call :=
  [.schedule 0 5 0 65535 false [searchCycle 0], .schedule 1 5 0 65535 false [searchCycle 1],
    .unschedule 0, .schedule 0 4 0 65535 false [searchCycle 0]]

/-- An operation is unscheduled and scheduled again in an earlier cycle, and the dependence holds. -/
theorem runCalls_depHolds_reschedule :
    ∃ s, runCalls (twoOpers true [1]) reschedule (unplaced fun _ ↦ 1) = .ok s ∧
      (s 0).scheduled = true ∧ (s 1).scheduled = true ∧ DepHolds (twoOpers true [1]) s 0 := by
  refine ⟨_, rfl, rfl, rfl, runCalls_depHolds _ sound_twoOpers (fun k _ _ h ↦ ?_)
    (unplaced fun _ ↦ 1) (fun _ ↦ rfl) reschedule (by simp [reschedule, Call.InRange]) _ rfl 0
    ⟨⟨[0], []⟩, by simp [twoOpers], by simp⟩ rfl rfl rfl⟩
  simp only [twoOpers] at h ⊢
  split_ifs at h ⊢

/-- Slots from 65537 to 65540 are slots 1 to 4 to `SM_sched_table`, so operation 1 is scheduled in a
slot before the one of operation 0. -/
theorem not_depHolds_truncated :
    ∃ s, runCalls (twoOpers false [])
        [.schedule 0 5 2 2 false [searchCycle 0],
          .schedule 1 5 65537 65540 false [searchCycle 4]]
        (unplaced fun o ↦ o) = .ok s ∧
      (s 0).scheduled = true ∧ (s 1).scheduled = true ∧ ¬DepHolds (twoOpers false []) s 0 := by
  refine ⟨_, rfl, rfl, rfl, fun h ↦ ?_⟩
  have hbefore := h.2 rfl (Or.inl rfl)
  revert hbefore
  rw [Before]
  decide

end OpenImpact.Sm
