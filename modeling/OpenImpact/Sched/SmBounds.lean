import OpenImpact.Library.CExpr
import Mathlib.Logic.Function.Basic
import Mathlib.Data.List.Basic

/-!
# Scheduling bounds

The bounds the schedule manager keeps for each operation, from `sm_dep.c` and `sm_sched.c`. A bound
is a cycle with a slot in it, and a dependence on a scheduled operation narrows it to exactly the
positions that meet the dependence (`admits_tightenUpper`, `admits_tightenLower`).
-/

namespace OpenImpact.Sm

/-- Slots, `unsigned short`. -/
abbrev Slot := Fin 65536

instance neZero_slots : NeZero 65536 := ⟨by decide⟩

/-- `SM_MAX_SLOT`. -/
def maxSlot : Slot := 65535

/-- `SM_MAX_CYCLE`. -/
def maxCycle : ℤ := 2000000000

/-- `SM_Dep`, with the dependence's flags `SM_REG_DEP`, `SM_FLOW_DEP | SM_OUTPUT_DEP` and
`SM_HARD_DEP`. -/
structure Dep where
  fromOp : ℕ
  toOp : ℕ
  minDelay : ℤ
  omega : ℤ
  regDep : Bool
  flowOrOutputDep : Bool
  hardDep : Bool
  ignore : Bool

/-- A bound: the cycle, the slot and the dependence that caused it. -/
structure Bound where
  cycle : ℤ
  slot : Slot
  dep : Option ℕ

/-- The fields of `SM_Oper` that scheduling changes. -/
structure Oper where
  scheduled : Bool
  schedCycle : ℤ
  schedSlot : Slot
  altChosen : Option ℕ
  lowerBound : Bound
  upperBound : Bound
  nosoftLowerBound : Bound
  nosoftUpperBound : Bound
  numUnresolvedHardDepIn : ℕ
  inDepInResolved : Bool

/-- The dependences in and out of one register action. -/
structure RegAction where
  depIn : List ℕ
  depOut : List ℕ

/-- The fields of `SM_Oper` that are fixed. `lateTime` has the entries of `late_time`, one for each
exit and so at least one, and is `none` for `NULL`. -/
structure OperInfo where
  actions : List RegAction
  load : Bool
  lateTime : Option (ℤ × List ℤ)
  ignore : Bool

/-- The fixed fields of `SM_Cb`, its operations and dependences, and the parameters
`SM_sched_slack_loads_for_miss` and `check_resources_for_only_one_alt`. -/
structure Cb where
  ii : ℤ
  moduloResources : Bool
  testOnlyOneAlt : Bool
  slackLoadsForMiss : Bool
  dep : ℕ → Dep
  oper : ℕ → OperInfo

/-- The operations. -/
abbrev State := ℕ → Oper

/-! ### The source's functions -/

/-- Whether the operations of a dependence are ordered by their slots too. -/
def Dep.zeroCycle (d : Dep) : Bool :=
  !(decide (d.minDelay ≠ 0) || (decide (d.omega ≠ 0) && d.regDep))

/-- One update of an upper bound. -/
def tightenUpper (zeroCycle : Bool) (b : Bound) (cycle : ℤ) (slot : Slot) (k : ℕ) : Bound :=
  if !zeroCycle then
    if b.cycle > cycle then ⟨cycle, maxSlot, some k⟩ else b
  else if b.cycle > cycle ∨ b.cycle = cycle ∧ b.slot ≥ slot then
    if slot ≠ 0 then ⟨cycle, slot - 1, some k⟩ else ⟨cycle - 1, maxSlot, some k⟩
  else b

/-- One update of a lower bound. -/
def tightenLower (zeroCycle : Bool) (b : Bound) (cycle : ℤ) (slot : Slot) (k : ℕ) : Bound :=
  if !zeroCycle then
    if b.cycle < cycle then ⟨cycle, 0, some k⟩ else b
  else if b.cycle < cycle ∨ b.cycle = cycle ∧ b.slot ≤ slot then
    if slot ≠ maxSlot then ⟨cycle, slot + 1, some k⟩ else ⟨cycle + 1, 0, some k⟩
  else b

/-- `cycle_dep_resolved` in `SM_update_upper_bounds`. -/
def upperResolved (cb : Cb) (s : State) (d : Dep) : Run ℤ := do
  let cycle ← int32 ((s d.toOp).schedCycle - d.minDelay)
  if d.omega ≠ 0 then do
    let distance ← int32 (d.omega * cb.ii)
    int32 (cycle + distance)
  else .ok cycle

/-- `SM_update_upper_bounds`. -/
def updateUpperBounds (cb : Cb) (s : State) (k : ℕ) : Run State :=
  let d := cb.dep k
  if !(s d.toOp).scheduled then .error (.punt "SM_update_upper_bounds: op%d not scheduled\n")
  else do
    let cycle ← upperResolved cb s d
    let o := s d.fromOp
    let slot := (s d.toOp).schedSlot
    .ok (Function.update s d.fromOp { o with
      upperBound := tightenUpper d.zeroCycle o.upperBound cycle slot k
      nosoftUpperBound :=
        if d.hardDep then tightenUpper d.zeroCycle o.nosoftUpperBound cycle slot k
        else o.nosoftUpperBound })

/-- The extra cycles for consumers of loads. -/
def slackCycles (cb : Cb) (d : Dep) (cycle : ℤ) : Run ℤ :=
  if cb.slackLoadsForMiss && d.regDep && d.flowOrOutputDep && (cb.oper d.fromOp).load then
    match (cb.oper d.toOp).lateTime with
    | some (t, ts) => do
      let slack ← int32 (ts.foldl (fun m t ↦ if t < m then t else m) t - cycle)
      int32 (cycle + if slack ≥ 6 then 4 else if slack ≥ 4 then 2 else 0)
    | none => .ok cycle
  else .ok cycle

/-- `cycle_dep_resolved` in `SM_update_lower_bounds`. -/
def lowerResolved (cb : Cb) (s : State) (d : Dep) : Run ℤ := do
  let cycle ← int32 ((s d.fromOp).schedCycle + d.minDelay)
  if d.omega ≠ 0 then do
    let distance ← int32 (d.omega * cb.ii)
    let cycle ← int32 (cycle - distance)
    slackCycles cb d cycle
  else slackCycles cb d cycle

/-- `SM_update_lower_bounds`. -/
def updateLowerBounds (cb : Cb) (s : State) (k : ℕ) : Run State :=
  let d := cb.dep k
  if !(s d.fromOp).scheduled then .error (.punt "SM_update_lower_bounds: op%d not scheduled\n")
  else do
    let cycle ← lowerResolved cb s d
    let o := s d.toOp
    let slot := (s d.fromOp).schedSlot
    .ok (Function.update s d.toOp { o with
      lowerBound := tightenLower d.zeroCycle o.lowerBound cycle slot k
      nosoftLowerBound :=
        if d.hardDep then tightenLower d.zeroCycle o.nosoftLowerBound cycle slot k
        else o.nosoftLowerBound })

/-- One dependence out of the operation whose upper bound `SM_recalculate_upper_bound` builds. -/
def recalculateOut (cb : Cb) (s : State) (k : ℕ) : Run State :=
  if (cb.dep k).ignore then .ok s
  else if !(s (cb.dep k).toOp).scheduled then .ok s
  else updateUpperBounds cb s k

/-- `SM_recalculate_upper_bound`. -/
def recalculateUpperBound (cb : Cb) (s : State) (o : ℕ) : Run State :=
  (cb.oper o).actions.foldlM (fun s a ↦ a.depOut.foldlM (recalculateOut cb) s)
    (Function.update s o { s o with
      upperBound := ⟨maxCycle, maxSlot, none⟩
      nosoftUpperBound := ⟨maxCycle, maxSlot, none⟩ })

/-- One dependence into the operation whose lower bound `SM_recalculate_lower_bound` builds. -/
def recalculateIn (cb : Cb) (s : State) (k : ℕ) : Run State :=
  if (cb.dep k).ignore then .ok s
  else if !(s (cb.dep k).fromOp).scheduled then .ok s
  else updateLowerBounds cb s k

/-- `SM_recalculate_lower_bound`. -/
def recalculateLowerBound (cb : Cb) (s : State) (o : ℕ) : Run State :=
  (cb.oper o).actions.foldlM (fun s a ↦ a.depIn.foldlM (recalculateIn cb) s)
    (Function.update s o { s o with
      lowerBound := ⟨-maxCycle, 0, none⟩
      nosoftLowerBound := ⟨-maxCycle, 0, none⟩ })

/-! ### What a bound admits -/

/-- A position, a cycle and a slot in it, comes before another. -/
def Before (p q : ℤ × Slot) : Prop :=
  p.1 < q.1 ∨ p.1 = q.1 ∧ p.2 < q.2

/-- A position that an upper bound admits. -/
def Bound.AdmitsUpper (b : Bound) (p : ℤ × Slot) : Prop :=
  p.1 < b.cycle ∨ p.1 = b.cycle ∧ p.2 ≤ b.slot

/-- A position that a lower bound admits. -/
def Bound.AdmitsLower (b : Bound) (p : ℤ × Slot) : Prop :=
  b.cycle < p.1 ∨ b.cycle = p.1 ∧ b.slot ≤ p.2

theorem val_maxSlot : (maxSlot : ℕ) = 65535 := rfl

/-- One slot earlier does not wrap unless the slot is the first one. -/
theorem Slot.val_sub_one {slot : Slot} (h : slot ≠ 0) : ((slot - 1 : Slot) : ℕ) = slot - 1 := by
  have hlt := slot.isLt
  have hne : (slot : ℕ) ≠ 0 := fun heq ↦ h (Fin.ext heq)
  rw [Fin.sub_def]
  show (65536 - 1 + (slot : ℕ)) % 65536 = slot - 1
  omega

/-- One slot later does not wrap unless the slot is `SM_MAX_SLOT`. -/
theorem Slot.val_add_one {slot : Slot} (h : slot ≠ maxSlot) :
    ((slot + 1 : Slot) : ℕ) = slot + 1 := by
  have hlt := slot.isLt
  have hne : (slot : ℕ) ≠ 65535 := fun heq ↦ h (Fin.ext heq)
  rw [Fin.val_add]
  exact Nat.mod_eq_of_lt (show (slot : ℕ) + 1 < 65536 by omega)

/-- A tightened upper bound admits what the bound did, up to the cycle and, without delay, up to the
slot. -/
theorem admits_tightenUpper {zeroCycle : Bool} {b : Bound} {cycle : ℤ} {slot : Slot} {k : ℕ}
    {p : ℤ × Slot} :
    (tightenUpper zeroCycle b cycle slot k).AdmitsUpper p ↔
      b.AdmitsUpper p ∧ p.1 ≤ cycle ∧ (zeroCycle = true → Before p (cycle, slot)) := by
  have hp := p.2.isLt
  simp only [tightenUpper, Bound.AdmitsUpper, Before, Fin.lt_def, Fin.le_def, ge_iff_le]
  cases zeroCycle with
  | false =>
    simp only [Bool.not_false, if_true, Bool.false_eq_true, false_imp_iff, and_true]
    split_ifs
    · rw [val_maxSlot]
      dsimp only
      omega
    · omega
  | true =>
    simp only [Bool.not_true, Bool.false_eq_true, if_false, true_imp_iff]
    split_ifs with h hslot
    · rw [Slot.val_sub_one hslot]
      have hpos : (slot : ℕ) ≠ 0 := fun heq ↦ hslot (Fin.ext heq)
      dsimp only
      omega
    · obtain rfl := not_not.1 hslot
      rw [val_maxSlot, Fin.val_zero]
      dsimp only
      omega
    · omega

/-- A tightened lower bound admits what the bound did, from the cycle and the slot on. -/
theorem admits_tightenLower {zeroCycle : Bool} {b : Bound} {cycle : ℤ} {slot : Slot} {k : ℕ}
    {p : ℤ × Slot} :
    (tightenLower zeroCycle b cycle slot k).AdmitsLower p ↔
      b.AdmitsLower p ∧ cycle ≤ p.1 ∧ (zeroCycle = true → Before (cycle, slot) p) := by
  have hp := p.2.isLt
  simp only [tightenLower, Bound.AdmitsLower, Before, Fin.lt_def, Fin.le_def]
  cases zeroCycle with
  | false =>
    simp only [Bool.not_false, if_true, Bool.false_eq_true, false_imp_iff, and_true]
    split_ifs
    · rw [Fin.val_zero]
      dsimp only
      omega
    · omega
  | true =>
    simp only [Bool.not_true, Bool.false_eq_true, if_false, true_imp_iff]
    split_ifs with h hslot
    · rw [Slot.val_add_one hslot]
      dsimp only
      omega
    · obtain rfl := not_not.1 hslot
      rw [val_maxSlot, Fin.val_zero]
      dsimp only
      omega
    · omega

/-! ### What the updates establish -/

/-- A position of its source that a dependence allows. -/
def UpperMet (cb : Cb) (s : State) (d : Dep) (p : ℤ × Slot) : Prop :=
  p.1 ≤ (s d.toOp).schedCycle - d.minDelay + d.omega * cb.ii ∧
    (d.zeroCycle = true →
      Before p ((s d.toOp).schedCycle - d.minDelay + d.omega * cb.ii, (s d.toOp).schedSlot))

/-- A position of its sink that a dependence allows. -/
def LowerMet (cb : Cb) (s : State) (d : Dep) (p : ℤ × Slot) : Prop :=
  (s d.fromOp).schedCycle + d.minDelay - d.omega * cb.ii ≤ p.1 ∧
    (d.zeroCycle = true →
      Before ((s d.fromOp).schedCycle + d.minDelay - d.omega * cb.ii, (s d.fromOp).schedSlot) p)

/-- No operation moves, and the bounds admit no more than before. -/
structure Narrows (s s' : State) : Prop where
  scheduled : ∀ o, (s' o).scheduled = (s o).scheduled
  cycle : ∀ o, (s' o).schedCycle = (s o).schedCycle
  slot : ∀ o, (s' o).schedSlot = (s o).schedSlot
  upper : ∀ o p, (s' o).nosoftUpperBound.AdmitsUpper p → (s o).nosoftUpperBound.AdmitsUpper p
  lower : ∀ o p, (s' o).nosoftLowerBound.AdmitsLower p → (s o).nosoftLowerBound.AdmitsLower p

/-- Dependence `k` is met by all positions that the upper bound of its source admits. -/
def UpperDone (cb : Cb) (k : ℕ) (s : State) : Prop :=
  ∀ p, (s (cb.dep k).fromOp).nosoftUpperBound.AdmitsUpper p → UpperMet cb s (cb.dep k) p

/-- Dependence `k` is met by all positions that the lower bound of its sink admits. -/
def LowerDone (cb : Cb) (k : ℕ) (s : State) : Prop :=
  ∀ p, (s (cb.dep k).toOp).nosoftLowerBound.AdmitsLower p → LowerMet cb s (cb.dep k) p

section Update

variable {cb : Cb} {s s' s'' : State} {k o : ℕ} {d : Dep} {p : ℤ × Slot}

theorem Narrows.refl (s : State) : Narrows s s :=
  ⟨fun _ ↦ rfl, fun _ ↦ rfl, fun _ ↦ rfl, fun _ _ h ↦ h, fun _ _ h ↦ h⟩

theorem Narrows.trans (h : Narrows s s') (h' : Narrows s' s'') : Narrows s s'' where
  scheduled o := (h'.scheduled o).trans (h.scheduled o)
  cycle o := (h'.cycle o).trans (h.cycle o)
  slot o := (h'.slot o).trans (h.slot o)
  upper o p hp := h.upper o p (h'.upper o p hp)
  lower o p hp := h.lower o p (h'.lower o p hp)

/-- A change to one operation that does not move it and widens no bound. -/
theorem narrows_update {x : Oper} (hscheduled : x.scheduled = (s o).scheduled)
    (hcycle : x.schedCycle = (s o).schedCycle) (hslot : x.schedSlot = (s o).schedSlot)
    (hupper : ∀ p, x.nosoftUpperBound.AdmitsUpper p → (s o).nosoftUpperBound.AdmitsUpper p)
    (hlower : ∀ p, x.nosoftLowerBound.AdmitsLower p → (s o).nosoftLowerBound.AdmitsLower p) :
    Narrows s (Function.update s o x) := by
  have hall : ∀ P : ℕ → Oper → Prop, P o x → (∀ o', P o' (s o')) →
      ∀ o', P o' (Function.update s o x o') := by
    intro P hx hs o'
    by_cases ho : o' = o
    · subst ho
      rwa [Function.update_self]
    · rw [Function.update_of_ne ho]
      exact hs o'
  exact {
    scheduled := hall (fun o y ↦ y.scheduled = (s o).scheduled) hscheduled fun _ ↦ rfl
    cycle := hall (fun o y ↦ y.schedCycle = (s o).schedCycle) hcycle fun _ ↦ rfl
    slot := hall (fun o y ↦ y.schedSlot = (s o).schedSlot) hslot fun _ ↦ rfl
    upper := hall (fun o y ↦ ∀ p, y.nosoftUpperBound.AdmitsUpper p →
      (s o).nosoftUpperBound.AdmitsUpper p) hupper fun _ _ hp ↦ hp
    lower := hall (fun o y ↦ ∀ p, y.nosoftLowerBound.AdmitsLower p →
      (s o).nosoftLowerBound.AdmitsLower p) hlower fun _ _ hp ↦ hp }

/-- A place that meets the upper bound of a dependence still meets it after others have been narrowed.
-/
theorem Narrows.upperMet (h : Narrows s s') (hmet : UpperMet cb s d p) : UpperMet cb s' d p := by
  rw [UpperMet, h.cycle, h.slot]
  exact hmet

/-- So does one that meets the lower bound. -/
theorem Narrows.lowerMet (h : Narrows s s') (hmet : LowerMet cb s d p) : LowerMet cb s' d p := by
  rw [LowerMet, h.cycle, h.slot]
  exact hmet

/-- A bound that has been tightened along a dependence stays as tight. -/
theorem Narrows.upperDone (h : Narrows s s') (hdone : UpperDone cb k s) : UpperDone cb k s' :=
  fun p hp ↦ h.upperMet (hdone p (h.upper _ p hp))

/-- The same for lower bounds. -/
theorem Narrows.lowerDone (h : Narrows s s') (hdone : LowerDone cb k s) : LowerDone cb k s' :=
  fun p hp ↦ h.lowerMet (hdone p (h.lower _ p hp))

/-- The latest cycle that a dependence allows its source. -/
theorem upperResolved_eq_ok {c : ℤ} (h : upperResolved cb s d = .ok c) :
    c = (s d.toOp).schedCycle - d.minDelay + d.omega * cb.ii := by
  obtain ⟨c₁, h₁, h⟩ := Run.bind_eq_ok.1 h
  obtain ⟨-, rfl⟩ := int32_eq_ok.1 h₁
  split_ifs at h with homega
  · obtain ⟨c₂, h₂, h⟩ := Run.bind_eq_ok.1 h
    obtain ⟨-, rfl⟩ := int32_eq_ok.1 h₂
    exact (int32_eq_ok.1 h).2.symm
  · rw [← Except.ok.inj h, not_not.1 homega, zero_mul, add_zero]

/-- Slack only relaxes. -/
theorem le_of_slackCycles {c c' : ℤ} (h : slackCycles cb d c = .ok c') : c ≤ c' := by
  rw [slackCycles] at h
  split_ifs at h
  · split at h
    · obtain ⟨slack, -, h⟩ := Run.bind_eq_ok.1 h
      have heq := (int32_eq_ok.1 h).2
      split_ifs at heq <;> omega
    · exact (Except.ok.inj h).le
  · exact (Except.ok.inj h).le

/-- The cycle from which on a dependence allows its sink is not before the dependence says. -/
theorem le_of_lowerResolved {c : ℤ} (h : lowerResolved cb s d = .ok c) :
    (s d.fromOp).schedCycle + d.minDelay - d.omega * cb.ii ≤ c := by
  obtain ⟨c₁, h₁, h⟩ := Run.bind_eq_ok.1 h
  obtain ⟨-, rfl⟩ := int32_eq_ok.1 h₁
  split_ifs at h with homega
  · obtain ⟨c₂, h₂, h⟩ := Run.bind_eq_ok.1 h
    obtain ⟨c₃, h₃, h⟩ := Run.bind_eq_ok.1 h
    obtain ⟨-, rfl⟩ := int32_eq_ok.1 h₂
    obtain ⟨-, rfl⟩ := int32_eq_ok.1 h₃
    exact le_of_slackCycles h
  · rw [not_not.1 homega, zero_mul, sub_zero]
    exact le_of_slackCycles h

/-- `SM_update_upper_bounds` tightens the bound of the source of a hard dependence. -/
theorem updateUpperBounds_spec (hhard : (cb.dep k).hardDep = true)
    (h : updateUpperBounds cb s k = .ok s') : Narrows s s' ∧ UpperDone cb k s' := by
  rw [updateUpperBounds] at h
  simp only [hhard, if_true] at h
  split_ifs at h with hscheduled
  obtain ⟨c, hc, h⟩ := Run.bind_eq_ok.1 h
  obtain rfl := Except.ok.inj h
  have hnarrows : Narrows s (Function.update s (cb.dep k).fromOp { s (cb.dep k).fromOp with
      upperBound := tightenUpper (cb.dep k).zeroCycle (s (cb.dep k).fromOp).upperBound c
        (s (cb.dep k).toOp).schedSlot k
      nosoftUpperBound := tightenUpper (cb.dep k).zeroCycle
        (s (cb.dep k).fromOp).nosoftUpperBound c (s (cb.dep k).toOp).schedSlot k }) :=
    narrows_update rfl rfl rfl (fun p hp ↦ (admits_tightenUpper.1 hp).1) fun p hp ↦ hp
  refine ⟨hnarrows, fun p hp ↦ hnarrows.upperMet ?_⟩
  rw [Function.update_self] at hp
  rw [UpperMet, ← upperResolved_eq_ok hc]
  exact (admits_tightenUpper.1 hp).2

/-- `SM_update_lower_bounds` tightens the bound of the sink. -/
theorem updateLowerBounds_spec (hhard : (cb.dep k).hardDep = true)
    (h : updateLowerBounds cb s k = .ok s') : Narrows s s' ∧ LowerDone cb k s' := by
  rw [updateLowerBounds] at h
  simp only [hhard, if_true] at h
  split_ifs at h with hscheduled
  obtain ⟨c, hc, h⟩ := Run.bind_eq_ok.1 h
  obtain rfl := Except.ok.inj h
  have hnarrows : Narrows s (Function.update s (cb.dep k).toOp { s (cb.dep k).toOp with
      lowerBound := tightenLower (cb.dep k).zeroCycle (s (cb.dep k).toOp).lowerBound c
        (s (cb.dep k).fromOp).schedSlot k
      nosoftLowerBound := tightenLower (cb.dep k).zeroCycle
        (s (cb.dep k).toOp).nosoftLowerBound c (s (cb.dep k).fromOp).schedSlot k }) :=
    narrows_update rfl rfl rfl (fun p hp ↦ hp) fun p hp ↦ (admits_tightenLower.1 hp).1
  refine ⟨hnarrows, fun p hp ↦ hnarrows.lowerMet ?_⟩
  rw [Function.update_self] at hp
  obtain ⟨-, hle, hzero⟩ := admits_tightenLower.1 hp
  have hc' := le_of_lowerResolved hc
  refine ⟨hc'.trans hle, fun hz ↦ ?_⟩
  rcases hzero hz with hlt | ⟨heq, hslot⟩
  · exact Or.inl (hc'.trans_lt hlt)
  · rcases hc'.lt_or_eq with hlt | heq'
    · exact Or.inl (hlt.trans_eq heq)
    · exact Or.inr ⟨heq'.trans heq, hslot⟩

end Update

end OpenImpact.Sm
