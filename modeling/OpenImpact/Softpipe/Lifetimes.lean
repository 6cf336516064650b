import OpenImpact.Softpipe.StageMoves
import OpenImpact.Softpipe.PipeSchedSm

/-!
# Shorter lifetimes after scheduling

`Lpipe_optimize_lifetimes` moves operations without outgoing register flow dependences to an earlier
stage when the loop was scheduled backward, and operations without incoming ones to a later stage when
it was scheduled forward. A run of it that returns leaves a modulo schedule with the kernel it found, and
breaks no dependence that was met (`optimizeLifetimes_spec`).

It rests on `Moved` and on `minslack_spec`: an operation is moved by whole stages, and not further
than the least slack of its dependences allows. That a run returns is not claimed, nor that
lifetimes get shorter: what is said is that the schedule stays one. The manager is any one that
keeps its laws and does not change which dependences are ignored.
-/

namespace OpenImpact.Softpipe

section Functions

variable (l : PipeLoop) (flowDep : ℕ → Bool)

/-- `num_outgoing_reg_deps` and `num_incoming_reg_deps`. -/
def numRegDeps (s : PipeState l) (ks : List ℕ) : ℕ :=
  ks.countP fun k ↦ !l.manager.ignore s.sm k && flowDep k && (l.cb.dep k).regDep

/-- `tempslack`, one cycle less where the slots do not allow the same cycle. -/
def lifetimeSlack (s : PipeState l) (k : ℕ) : Run ℤ := do
  let d := l.cb.dep k
  let slack ← tempslack l s k
  if d.minDelay = 0 ∧ s.schedSlot d.toOp < s.schedSlot d.fromOp then int32 (slack - 1)
  else .ok slack

/-- The body of the loop after backward scheduling. -/
def optimizeBackward (s : PipeState l) (o : ℕ) : Run (PipeState l) :=
  if l.startStop o || l.isLoopBackBr o then .ok s
  else if numRegDeps l flowDep s (l.depsOut o) ≠ 0 then .ok s
  else do
    let slack ← minslack l (fun k ↦ l.startStop (l.cb.dep k).fromOp) (lifetimeSlack l s) s
      (l.depsIn o)
    if slack = impossibleSlack then
      .error (.punt
        "Lpipe_optimize_lifetimes:minslack cannot be equal to IMPOSSIBLE_SLACK (op %d).")
    else do
      let earliestIssueTime ← int32 (s.schedCycle o - slack)
      let issueTime ← moveEarlier l.cb.ii (s.schedCycle o) earliestIssueTime
      if issueTime = s.schedCycle o then .ok s
      else
        reschedule l "Lpipe_optimize_lifetimes(B): Can't reschedule sm_op!" s o issueTime
          (s.schedSlot o : ℕ)

/-- The body of the loop after forward scheduling. -/
def optimizeForward (s : PipeState l) (o : ℕ) : Run (PipeState l) :=
  if l.startStop o || l.isLoopBackBr o then .ok s
  else if numRegDeps l flowDep s (l.depsIn o) ≠ 0 then .ok s
  else do
    let slack ← minslack l (fun k ↦ l.startStop (l.cb.dep k).toOp) (lifetimeSlack l s) s
      (l.depsOut o)
    let latestIssueTime ← int32 (s.schedCycle o + slack)
    let issueTime ← moveLater l.cb.ii (s.schedCycle o) latestIssueTime
    if issueTime = s.schedCycle o then .ok s
    else
      reschedule l "Lpipe_optimize_lifetimes(F): Can't reschedule sm_op!" s o issueTime
        (s.schedSlot o : ℕ)

/-- `Lpipe_optimize_lifetimes`, with the flag `SM_FLOW_DEP` of a dependence and
`Lpipe_backward_sched`. -/
def optimizeLifetimes (backwardSched : Bool) (s : PipeState l) : Run (PipeState l) :=
  if backwardSched then l.serialOpers.reverse.foldlM (optimizeBackward l flowDep) s
  else l.serialOpers.foldlM (optimizeForward l flowDep) s

end Functions

section Spec

variable {l : PipeLoop} {Inv : l.manager.State → Prop} {flowDep : ℕ → Bool} {s s₀ s' : PipeState l}
  {o k : ℕ} {step : ℤ}

/-- What holds between the calls of the pass that started in `s₀` and moves operations by `step`. -/
structure Shortened (Inv : l.manager.State → Prop) (step : ℤ) (s₀ s : PipeState l) : Prop where
  moved : Moved Inv step l.isLoopBackBr s₀ s
  met : ∀ k, l.RealDep k → l.manager.ignore s₀.sm k = false → s₀.Met k → s.Met k

instance : Decidable (s.Met k) := inferInstanceAs (Decidable (_ ∧ (_ → _ → _)))

theorem lifetimeSlack_spec {t : ℤ} (h : lifetimeSlack l s k = .ok t) : t ≤ s.slack k ∧
    ((l.cb.dep k).minDelay = 0 →
      s.schedSlot (l.cb.dep k).toOp < s.schedSlot (l.cb.dep k).fromOp → t < s.slack k) := by
  obtain ⟨slack, hslack, h⟩ := Run.bind_eq_ok.1 h
  obtain rfl := tempslack_eq_ok hslack
  split_ifs at h with hslot
  · have := (int32_eq_ok.1 h).2
    exact ⟨by omega, fun _ _ ↦ by omega⟩
  · obtain rfl := Except.ok.inj h
    exact ⟨le_refl _, fun hdelay hlt ↦ absurd ⟨hdelay, hlt⟩ hslot⟩

/-- What `minslack` says of one dependence, once the slack is used up by `x` cycles. -/
theorem keepsSlack_of_minslack {skip : ℕ → Bool} {ks : List ℕ} {m x : ℤ}
    (hmin : minslack l skip (lifetimeSlack l s) s ks = .ok m) (hx : 0 ≤ m + x) (hk : k ∈ ks)
    (hignore : l.manager.ignore s.sm k = false) (hskip : skip k = false) :
    0 ≤ s.slack k + x ∧ ((l.cb.dep k).minDelay = 0 →
      s.schedSlot (l.cb.dep k).toOp < s.schedSlot (l.cb.dep k).fromOp → 0 < s.slack k + x) := by
  obtain ⟨t, ht, hle⟩ := minslack_spec hmin k hk hignore hskip
  obtain ⟨hslack, hslot⟩ := lifetimeSlack_spec ht
  refine ⟨by omega, fun hdelay hlt ↦ ?_⟩
  have := hslot hdelay hlt
  omega

theorem mem_depsIn (h : l.RealDep k) : k ∈ l.depsIn (l.cb.dep k).toOp := by
  obtain ⟨a, ha, hk⟩ := h.isDep
  exact List.mem_flatMap.2 ⟨a, ha, hk⟩

theorem mem_depsOut (hcb : l.cb.Sound) (h : l.RealDep k) : k ∈ l.depsOut (l.cb.dep k).fromOp := by
  obtain ⟨a, ha, hk⟩ := (hcb.depOut k).1 h.isDep
  exact List.mem_flatMap.2 ⟨a, ha, hk⟩

section Step

variable (hcb : l.cb.Sound) (hm : l.manager.Lawful l.cb Inv)
  (hignore : ∀ sm sm' k, l.manager.ignore sm k = l.manager.ignore sm' k)
include hcb hm hignore

/-- **An operation moved earlier** keeps the dependences into it because of their slack, and those out
of it gain slack. -/
theorem Shortened.optimizeBackward (h : Shortened Inv (-l.cb.ii) s₀ s)
    (hrun : optimizeBackward l flowDep s o = .ok s') : Shortened Inv (-l.cb.ii) s₀ s' := by
  rw [Softpipe.optimizeBackward] at hrun
  split_ifs at hrun with hskip hflow
  · exact Except.ok.inj hrun ▸ h
  · exact Except.ok.inj hrun ▸ h
  obtain ⟨slack, hslack, hrun⟩ := Run.bind_eq_ok.1 hrun
  split_ifs at hrun
  obtain ⟨earliest, hearliest, hrun⟩ := Run.bind_eq_ok.1 hrun
  obtain ⟨t, ht, hrun⟩ := Run.bind_eq_ok.1 hrun
  split_ifs at hrun with hsame
  · exact Except.ok.inj hrun ▸ h
  obtain ⟨n, rfl, hwithin, -⟩ := stageLoop_spec ht
  have hn : n ≠ 0 := fun hzero ↦ hsame (by simp [hzero])
  have hbound := of_decide_eq_true (hwithin hn)
  have hcycles := (int32_eq_ok.1 hearliest).2
  obtain ⟨hmoved, hmove⟩ := h.moved.reschedule hm hrun (by simp_all)
  have hplaced := h.moved.placed
  have hδ : (n : ℤ) * -l.cb.ii ≤ 0 :=
    mul_nonpos_of_nonneg_of_nonpos (Int.natCast_nonneg n) (by have := hcb.one_le_ii; omega)
  refine ⟨hmoved, fun k hk hi hmet ↦ (h.met k hk hi hmet).shift
    (hmove.schedCycle (hplaced _ hk.fromOp_mem hk.fromOp_real)).2
    (hmove.schedCycle (hplaced _ hk.toOp_mem hk.toOp_real)).2 (hmove.slack hplaced hk) ?_⟩
  by_cases hto : (l.cb.dep k).toOp = o
  · by_cases hfrom : (l.cb.dep k).fromOp = o
    · exact Or.inl (by rw [if_pos hto, if_pos hfrom, sub_self])
    · rw [if_pos hto, if_neg hfrom, sub_zero]
      exact Or.inr (keepsSlack_of_minslack hslack (by omega) (hto ▸ mem_depsIn hk)
        ((hignore _ _ k).trans hi) hk.fromOp_real)
  · rw [if_neg hto]
    exact Or.inl (by split_ifs <;> omega)

/-- **An operation moved later**, the same with the dependences out of it. -/
theorem Shortened.optimizeForward (h : Shortened Inv l.cb.ii s₀ s)
    (hrun : optimizeForward l flowDep s o = .ok s') : Shortened Inv l.cb.ii s₀ s' := by
  rw [Softpipe.optimizeForward] at hrun
  split_ifs at hrun with hskip hflow
  · exact Except.ok.inj hrun ▸ h
  · exact Except.ok.inj hrun ▸ h
  obtain ⟨slack, hslack, hrun⟩ := Run.bind_eq_ok.1 hrun
  obtain ⟨latest, hlatest, hrun⟩ := Run.bind_eq_ok.1 hrun
  obtain ⟨t, ht, hrun⟩ := Run.bind_eq_ok.1 hrun
  split_ifs at hrun with hsame
  · exact Except.ok.inj hrun ▸ h
  obtain ⟨n, rfl, hwithin, -⟩ := stageLoop_spec ht
  have hn : n ≠ 0 := fun hzero ↦ hsame (by simp [hzero])
  have hbound := of_decide_eq_true (hwithin hn)
  have hcycles := (int32_eq_ok.1 hlatest).2
  obtain ⟨hmoved, hmove⟩ := h.moved.reschedule hm hrun (by simp_all)
  have hplaced := h.moved.placed
  have hδ : 0 ≤ (n : ℤ) * l.cb.ii :=
    mul_nonneg (Int.natCast_nonneg n) (by have := hcb.one_le_ii; omega)
  refine ⟨hmoved, fun k hk hi hmet ↦ (h.met k hk hi hmet).shift
    (hmove.schedCycle (hplaced _ hk.fromOp_mem hk.fromOp_real)).2
    (hmove.schedCycle (hplaced _ hk.toOp_mem hk.toOp_real)).2 (hmove.slack hplaced hk) ?_⟩
  by_cases hfrom : (l.cb.dep k).fromOp = o
  · by_cases hto : (l.cb.dep k).toOp = o
    · exact Or.inl (by rw [if_pos hto, if_pos hfrom, sub_self])
    · rw [if_pos hfrom, if_neg hto, zero_sub]
      exact Or.inr (keepsSlack_of_minslack hslack (by omega) (hfrom ▸ mem_depsOut hcb hk)
        ((hignore _ _ k).trans hi) hk.toOp_real)
  · rw [if_neg hfrom]
    exact Or.inl (by split_ifs <;> omega)

/-- The whole pass. -/
theorem shortened_optimizeLifetimes (backwardSched : Bool) (hinv : Inv s.sm) (hplaced : s.Placed)
    (hrun : optimizeLifetimes l flowDep backwardSched s = .ok s') :
    Shortened Inv (if backwardSched then -l.cb.ii else l.cb.ii) s s' := by
  have hstart {step : ℤ} : Shortened Inv step s s := ⟨.refl hinv hplaced, fun _ _ _ h ↦ h⟩
  cases backwardSched with
  | true =>
    exact Run.foldlM_keeps (P := Shortened Inv (-l.cb.ii) s)
      (fun _ _ _ _ h hrun ↦ h.optimizeBackward hcb hm hignore hrun) hstart hrun
  | false =>
    exact Run.foldlM_keeps (P := Shortened Inv l.cb.ii s)
      (fun _ _ _ _ h hrun ↦ h.optimizeForward hcb hm hignore hrun) hstart hrun

end Step

/-- **Every run of the pass that returns** leaves a modulo schedule, and the loop-back branch where it is.
The operations are in the slots and in the rows of the kernel in which it found them, no later if the
loop was scheduled backward and no earlier if it was scheduled forward, and the dependences that were met
are met, also where only the order of the slots in a cycle meets them. -/
theorem optimizeLifetimes_spec (l : PipeLoop) (hcb : l.cb.Sound) (Inv : l.manager.State → Prop)
    (hm : l.manager.Lawful l.cb Inv)
    (hignore : ∀ sm sm' k, l.manager.ignore sm k = l.manager.ignore sm' k) (flowDep : ℕ → Bool)
    (backwardSched : Bool) (s s' : PipeState l) (hinv : Inv s.sm) (hsched : l.Scheduled s.sm)
    (hrun : optimizeLifetimes l flowDep backwardSched s = .ok s') :
    l.Scheduled s'.sm ∧ (∀ o, l.isLoopBackBr o = true → s'.place o = s.place o) ∧
      (∀ o ∈ l.serialOpers, l.startStop o = false → s'.schedSlot o = s.schedSlot o ∧
        s'.schedCycle o ≡ s.schedCycle o [ZMOD l.cb.ii] ∧
        if backwardSched then s'.schedCycle o ≤ s.schedCycle o
        else s.schedCycle o ≤ s'.schedCycle o) ∧
      ∀ k, l.RealDep k → l.manager.ignore s.sm k = false → s.Met k → s'.Met k := by
  obtain ⟨hmoved, hmet⟩ := shortened_optimizeLifetimes hcb hm hignore backwardSched hinv hsched.placed hrun
  have hii : 0 ≤ l.cb.ii := by have := hcb.one_le_ii; omega
  refine ⟨hmoved.placed.scheduled hm hcb hmoved.manager, hmoved.fixed, fun o hmem hreal ↦ ?_, hmet⟩
  have hdvd : l.cb.ii ∣ if backwardSched then -l.cb.ii else l.cb.ii := by split_ifs <;> simp
  obtain ⟨hslot, hrow⟩ := hmoved.kernel hdvd hmem hreal
  refine ⟨hslot, hrow, ?_⟩
  cases backwardSched with
  | true => exact hmoved.schedCycle_le (by rw [if_pos rfl]; omega) hmem hreal
  | false => exact hmoved.le_schedCycle hii hmem hreal

end Spec

/-! ### A loop with a counter -/

/-- Operation 0 loads what operation 4 stores, 5 counts the iterations, and 1 is the loop-back branch,
which needs the result of both 0 and 5. -/
def counterCb : Sm.Cb where
  ii := 2
  moduloResources := true
  testOnlyOneAlt := false
  slackLoadsForMiss := false
  dep k :=
    if k = 0 then ⟨0, 4, 1, 0, true, true, true, false⟩
    else if k = 1 then ⟨5, 1, 1, 0, true, true, true, false⟩
    else if k = 2 then ⟨0, 5, 0, 1, false, false, true, false⟩
    else if k = 3 then ⟨0, 1, 3, 0, true, true, true, false⟩
    else ⟨4, 0, 0, 2, false, false, true, false⟩
  oper o :=
    if o = 0 then ⟨[⟨[4], [0, 2, 3]⟩], false, none, false⟩
    else if o = 1 then ⟨[⟨[1, 3], []⟩], false, none, false⟩
    else if o = 4 then ⟨[⟨[0], [4]⟩], false, none, false⟩
    else if o = 5 then ⟨[⟨[2], [1]⟩], false, none, false⟩
    else ⟨[], false, none, true⟩

/-- The start and the stop node are 2 and 3. -/
def counterLoop : PipeLoop where
  manager := smManager counterCb (slotMap 2)
  cb := counterCb
  serialOpers := [2, 0, 5, 4, 1, 3]
  startNode o := o == 2
  stopNode o := o == 3
  flagBr o := o == 1
  isLoopBackBr o := o == 1
  priority o := if o = 3 then 9 else if o = 1 then 8 else if o = 4 then 7 else if o = 5 then 6
    else if o = 0 then 5 else 0
  loopBackBr := 1
  totalIssueSlots := 4

theorem actions_counterCb (o : ℕ) : o ∈ [0, 1, 4, 5] ∨ (counterCb.oper o).actions = [] := by
  simp only [counterCb, List.mem_cons, List.not_mem_nil, or_false]
  split_ifs <;> simp_all

theorem sound_counterCb : counterCb.Sound where
  toOp_eq o a ha k hk := by
    rcases actions_counterCb o with ho | ho
    · exact (by decide : ∀ o ∈ [0, 1, 4, 5], ∀ a ∈ (counterCb.oper o).actions, ∀ k ∈ a.depIn,
        (counterCb.dep k).toOp = o) o ho a ha k hk
    · simp [ho] at ha
  fromOp_eq o a ha k hk := by
    rcases actions_counterCb o with ho | ho
    · exact (by decide : ∀ o ∈ [0, 1, 4, 5], ∀ a ∈ (counterCb.oper o).actions, ∀ k ∈ a.depOut,
        (counterCb.dep k).fromOp = o) o ho a ha k hk
    · simp [ho] at ha
  depOut k := by
    by_cases hk : k < 5
    · revert k
      unfold Sm.Cb.IsDep
      decide
    · have hdep : counterCb.dep k = ⟨4, 0, 0, 2, false, false, true, false⟩ := by
        simp only [counterCb]
        rw [if_neg (by omega), if_neg (by omega), if_neg (by omega), if_neg (by omega)]
      have hin : (counterCb.oper 0).actions = [⟨[4], [0, 2, 3]⟩] := rfl
      have hout : (counterCb.oper 4).actions = [⟨[0], [4]⟩] := rfl
      rw [Sm.Cb.IsDep, hdep, hin, hout]
      simp [show k ≠ 4 by omega]
  hardDep k _ := by
    simp only [counterCb]
    split_ifs <;> rfl
  omega_nonneg k _ := by
    simp only [counterCb]
    split_ifs <;> decide
  omega_eq h := by cases h
  one_le_ii := by decide

theorem selfDepsCarried_counterCb : counterCb.SelfDepsCarried := by
  intro k _ _ h
  simp only [counterCb] at h ⊢
  split_ifs at h ⊢
  all_goals cases h

theorem sound_counterLoop : counterLoop.Sound where
  nodup := by decide
  loopBackBr_mem := by decide
  loopBackBr_real := rfl
  loopBackBr := rfl
  fromOp := by decide
  one_le_slots := by decide
  slots_le := by decide

/-- The state of the schedule manager before scheduling. -/
def counterStart : (smManager counterCb (slotMap 2)).State :=
  (Sm.unplaced fun o ↦ if o = 1 then 2 else if o = 2 ∨ o = 3 then 0 else 1, [])

theorem smInv_counterStart : SmInv counterCb (slotMap 2) counterStart where
  bounds := Sm.inv_of_unscheduled fun _ ↦ rfl
  schedSlot _ _ := rfl
  used _ := by
    constructor
    · exact fun h ↦ absurd h List.not_mem_nil
    · rintro ⟨_, h, _⟩
      exact absurd h Bool.false_ne_true
  unique _ _ h := absurd h Bool.false_ne_true

/-- What the main loop makes of `counterLoop`. -/
def counterScheduled : Run (PipeState counterLoop) := do
  match ← smSchedule counterLoop counterStart (fun _ ↦ initOpInfo 0) 9 7 with
  | .ended x none => .ok x.pipe
  | _ => .error .outOfFuel

theorem counterScheduled_spec {s : PipeState counterLoop} (h : counterScheduled = .ok s) :
    SmInv counterCb (slotMap 2) s.sm ∧ s.Placed := by
  obtain ⟨x, hx, h⟩ := Run.bind_eq_ok.1 h
  split at h
  · obtain rfl := Except.ok.inj h
    exact placed_of_smSchedule sound_counterLoop
      (lawful_smManager sound_counterCb selfDepsCarried_counterCb) smInv_counterStart (fun _ ↦ rfl) hx
  · cases h

theorem optimizeLifetimes_counter :
    ∃ s s', counterScheduled = .ok s ∧
      optimizeLifetimes counterLoop (fun _ ↦ true) true s = .ok s' ∧ counterLoop.Scheduled s'.sm ∧
      s.schedCycle 4 = 1999 ∧ s'.schedCycle 4 = 1997 := by
  have hrun : (do
      let s ← counterScheduled
      let s' ← optimizeLifetimes counterLoop (fun _ ↦ true) true s
      .ok (s.schedCycle 4, s'.schedCycle 4) : Run (ℤ × ℤ)) = .ok (1999, 1997) := by decide +kernel
  obtain ⟨s, hs, hrun⟩ := Run.bind_eq_ok.1 hrun
  obtain ⟨s', hs', hrun⟩ := Run.bind_eq_ok.1 hrun
  have hlawful := lawful_smManager (R := slotMap 2) sound_counterCb selfDepsCarried_counterCb
  obtain ⟨hinv, hplaced⟩ := counterScheduled_spec hs
  exact ⟨s, s', hs, hs', (optimizeLifetimes_spec counterLoop sound_counterCb _ hlawful
    (fun _ _ _ ↦ rfl) (fun _ ↦ true) true s s' hinv (hplaced.scheduled hlawful sound_counterCb hinv)
    hs').1, Prod.mk.inj (Except.ok.inj hrun)⟩

theorem lt_of_isDep_counterCb {k : ℕ} (h : counterCb.IsDep k) : k < 5 := by
  obtain ⟨a, ha, hk⟩ := h
  rcases actions_counterCb (counterCb.dep k).toOp with ho | ho
  · exact (by decide : ∀ o ∈ [0, 1, 4, 5], ∀ a ∈ (counterCb.oper o).actions, ∀ k ∈ a.depIn, k < 5) _ ho a ha k hk
  · simp [ho] at ha

theorem realDep_counterLoop : ∀ k < 5, counterLoop.RealDep k := by
  intro k hk
  have hdep : counterCb.IsDep k := by
    revert k
    unfold Sm.Cb.IsDep
    decide
  obtain ⟨hfrom, hfrom', hto, hto'⟩ := (by decide : ∀ k < 5,
    (counterCb.dep k).fromOp ∈ counterLoop.serialOpers ∧ counterLoop.startStop (counterCb.dep k).fromOp = false ∧
      (counterCb.dep k).toOp ∈ counterLoop.serialOpers ∧
      counterLoop.startStop (counterCb.dep k).toOp = false) k hk
  exact ⟨hdep, hfrom, hfrom', hto, hto'⟩

end OpenImpact.Softpipe
