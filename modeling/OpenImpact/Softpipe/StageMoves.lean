import OpenImpact.Softpipe.PipeSchedRuns

/-!
# Moves by whole stages

The passes of `l_pipe_sched.c` that follow scheduling take an operation out of the schedule and put it
back in the same slot some multiple of II cycles away. The kernel stays as it is under such moves, and
what they do to the slack of a dependence decides whether it stays met (`PipeState.Met.shift`).
-/

namespace OpenImpact.Softpipe

/-- `IMPOSSIBLE_SLACK`. -/
def impossibleSlack : ℤ := 1000000

section Functions

variable (l : PipeLoop)

/-- The dependences into an operation. -/
def PipeLoop.depsIn (o : ℕ) : List ℕ :=
  (l.cb.oper o).actions.flatMap Sm.RegAction.depIn

/-- The dependences out of an operation. -/
def PipeLoop.depsOut (o : ℕ) : List ℕ :=
  (l.cb.oper o).actions.flatMap Sm.RegAction.depOut

/-- An operation is unscheduled, and scheduled in one slot of another cycle. -/
def reschedule (text : String) (s : PipeState l) (o : ℕ) (issueTime issueSlot : ℤ) :
    Run (PipeState l) := do
  let sm ← l.manager.unscheduleOper s.sm o
  let (sm, ok) ← l.manager.scheduleOper sm o issueTime issueSlot issueSlot
  if ok then
    .ok { s with
      sm := sm
      info := Function.update s.info o { s.info o with intraIterIssueTime := issueTime } }
  else .error (.punt text)

/-- `tempslack`. -/
def tempslack (s : PipeState l) (k : ℕ) : Run ℤ := do
  let d := l.cb.dep k
  let distance ← int32 (s.schedCycle d.toOp - s.schedCycle d.fromOp)
  let slack ← int32 (distance - d.minDelay)
  let carried ← int32 (d.omega * l.cb.ii)
  int32 (slack + carried)

/-- `minslack`, over the dependences that are not ignored or skipped. -/
def minslack (skip : ℕ → Bool) (slack : ℕ → Run ℤ) (s : PipeState l) (ks : List ℕ) : Run ℤ :=
  ks.foldlM (fun m k ↦
    if l.manager.ignore s.sm k || skip k then .ok m
    else do
      let t ← slack k
      .ok (if t < m then t else m)) impossibleSlack

end Functions

/-- `issue_time` is changed as long as the next value is within the slack. -/
def stageLoop (step : ℤ) (within : ℤ → Bool) : ℕ → ℤ → Run ℤ
  | 0, _ => .error .outOfFuel
  | n + 1, issueTime => do
    let next ← int32 (issueTime + step)
    if within next then stageLoop step within n next else .ok issueTime

/-- `issue_time` is II cycles earlier as long as that is not before `earliest_issue_time`. -/
def moveEarlier (ii issueTime earliestIssueTime : ℤ) : Run ℤ :=
  stageLoop (-ii) (fun t ↦ t ≥ earliestIssueTime) ((issueTime - earliestIssueTime).toNat + 1) issueTime

/-- `issue_time` is II cycles later as long as that is not after `latest_issue_time`. -/
def moveLater (ii issueTime latestIssueTime : ℤ) : Run ℤ :=
  stageLoop ii (fun t ↦ t ≤ latestIssueTime) ((latestIssueTime - issueTime).toNat + 1) issueTime

/-! ### The loops over `issue_time` -/

theorem stageLoop_spec {step t t' : ℤ} {within : ℤ → Bool} {n : ℕ}
    (hrun : stageLoop step within n t = .ok t') :
    ∃ m : ℕ, t' = t + m * step ∧ (m ≠ 0 → within t' = true) ∧ within (t' + step) = false := by
  induction n generalizing t with
  | zero => cases hrun
  | succ n ih =>
    obtain ⟨next, hnext, hrun⟩ := Run.bind_eq_ok.1 hrun
    obtain rfl := (int32_eq_ok.1 hnext).2
    split_ifs at hrun with hwithin
    · obtain ⟨m, rfl, hm, hend⟩ := ih hrun
      refine ⟨m + 1, by push_cast; ring, fun _ ↦ ?_, hend⟩
      rcases Nat.eq_zero_or_pos m with rfl | hpos
      · simpa using hwithin
      · exact hm hpos.ne'
    · obtain rfl := Except.ok.inj hrun
      exact ⟨0, by simp, fun h ↦ absurd rfl h, Bool.eq_false_iff.2 hwithin⟩

/-- A loop that comes closer to a bound with every step has fuel enough. -/
theorem stageLoop_ne_outOfFuel {step t : ℤ} {within : ℤ → Bool} {f : ℤ → ℕ} {n : ℕ}
    (hf : ∀ t, within (t + step) = true → f (t + step) < f t) (hn : f t < n) :
    stageLoop step within n t ≠ .error .outOfFuel := by
  induction n generalizing t with
  | zero => exact absurd hn (Nat.not_lt_zero _)
  | succ n ih =>
    intro hrun
    obtain hnext | ⟨next, hnext, hrun⟩ := Run.bind_eq_error.1 hrun
    · rw [int32] at hnext
      split_ifs at hnext
      cases hnext
    · obtain rfl := (int32_eq_ok.1 hnext).2
      split_ifs at hrun with hwithin
      exact ih (by have := hf t hwithin; omega) hrun

section Spec

variable {l : PipeLoop} {Inv : l.manager.State → Prop} {s s' : PipeState l} {o k : ℕ}

/-! ### Slack -/

/-- How many cycles later than necessary the operation that dependence `k` leads to is. -/
def PipeState.slack (s : PipeState l) (k : ℕ) : ℤ :=
  s.schedCycle (l.cb.dep k).toOp - s.schedCycle (l.cb.dep k).fromOp - (l.cb.dep k).minDelay +
    (l.cb.dep k).omega * l.cb.ii

/-- Dependence `k` is met: in one cycle by the order of the slots. -/
def PipeState.Met (s : PipeState l) (k : ℕ) : Prop :=
  0 ≤ s.slack k ∧ ((l.cb.dep k).minDelay = 0 → s.slack k = 0 →
    s.schedSlot (l.cb.dep k).fromOp ≤ s.schedSlot (l.cb.dep k).toOp)

theorem tempslack_eq_ok {t : ℤ} (h : tempslack l s k = .ok t) : t = s.slack k := by
  obtain ⟨d, hd, h⟩ := Run.bind_eq_ok.1 h
  obtain ⟨e, he, h⟩ := Run.bind_eq_ok.1 h
  obtain ⟨c, hc, h⟩ := Run.bind_eq_ok.1 h
  rw [← (int32_eq_ok.1 h).2, ← (int32_eq_ok.1 hc).2, ← (int32_eq_ok.1 he).2, ← (int32_eq_ok.1 hd).2]
  rfl

theorem minslack_spec {skip : ℕ → Bool} {slack : ℕ → Run ℤ} {ks : List ℕ} {m : ℤ}
    (h : minslack l skip slack s ks = .ok m) :
    ∀ k ∈ ks, l.manager.ignore s.sm k = false → skip k = false → ∃ t, slack k = .ok t ∧ m ≤ t := by
  refine (Run.foldlM_spec (R := fun a b : ℤ ↦ b ≤ a)
    (P := fun k m ↦ l.manager.ignore s.sm k = false → skip k = false → ∃ t, slack k = .ok t ∧ m ≤ t)
    (fun a ↦ le_refl a) (fun h h' ↦ h'.trans h)
    (fun hle h hignore hskip ↦ (h hignore hskip).imp fun t ht ↦ ⟨ht.1, hle.trans ht.2⟩)
    (fun k _ a b hrun ↦ ?_) h).2
  split_ifs at hrun with hskip
  · obtain rfl := Except.ok.inj hrun
    refine ⟨le_refl _, fun hi hs ↦ ?_⟩
    rw [hi, hs] at hskip
    exact absurd hskip Bool.false_ne_true
  · obtain ⟨t, ht, hrun⟩ := Run.bind_eq_ok.1 hrun
    obtain rfl := Except.ok.inj hrun
    refine ⟨?_, fun _ _ ↦ ⟨t, ht, ?_⟩⟩ <;> split_ifs <;> omega

/-- A dependence stays met if it gains slack, or loses no more than the slack that keeps the order of
the slots. -/
theorem PipeState.Met.shift {x : ℤ} (h : s.Met k)
    (hfrom : s'.schedSlot (l.cb.dep k).fromOp = s.schedSlot (l.cb.dep k).fromOp)
    (hto : s'.schedSlot (l.cb.dep k).toOp = s.schedSlot (l.cb.dep k).toOp)
    (hslack : s'.slack k = s.slack k + x)
    (hx : 0 ≤ x ∨ 0 ≤ s.slack k + x ∧ ((l.cb.dep k).minDelay = 0 →
      s.schedSlot (l.cb.dep k).toOp < s.schedSlot (l.cb.dep k).fromOp → 0 < s.slack k + x)) :
    s'.Met k := by
  obtain ⟨hnonneg, horder⟩ := h
  rw [PipeState.Met, hfrom, hto, hslack]
  rcases hx with hx | ⟨hx, hslot⟩
  · exact ⟨by omega, fun hdelay hzero ↦ horder hdelay (by omega)⟩
  · refine ⟨hx, fun hdelay hzero ↦ ?_⟩
    by_contra hlt
    have := hslot hdelay (Fin.not_le.1 hlt)
    omega

/-! ### One move -/

theorem PipeState.schedCycle_of_place {c : ℤ} {slot : Sm.Slot} (h : s.place o = some (c, slot)) :
    s.schedCycle o = c ∧ s.schedSlot o = slot := by
  have hne : l.manager.place s.sm o ≠ none := fun hnone ↦ by
    rw [PipeState.place, hnone] at h
    cases h
  have hplace := (Manager.place_ne_none hne).2.symm.trans h
  exact Prod.mk.inj (Option.some.inj hplace)

/-- Where a dependence leads to and comes from is scheduled, and not a start or stop node. -/
structure PipeLoop.RealDep (l : PipeLoop) (k : ℕ) : Prop where
  isDep : l.cb.IsDep k
  fromOp_mem : (l.cb.dep k).fromOp ∈ l.serialOpers
  fromOp_real : l.startStop (l.cb.dep k).fromOp = false
  toOp_mem : (l.cb.dep k).toOp ∈ l.serialOpers
  toOp_real : l.startStop (l.cb.dep k).toOp = false

/-- All operations of a loop are scheduled, in slots of their own and with their dependences met. -/
structure PipeLoop.Scheduled (l : PipeLoop) (sm : l.manager.State) : Prop where
  scheduled : ∀ o ∈ l.serialOpers, l.startStop o = false → (l.manager.oper sm o).scheduled = true
  slots : ∀ a ∈ l.serialOpers, ∀ b ∈ l.serialOpers, l.startStop a = false →
    l.startStop b = false → a ≠ b →
    (l.manager.oper sm a).schedCycle ≡ (l.manager.oper sm b).schedCycle [ZMOD l.cb.ii] →
    (l.manager.oper sm a).schedSlot ≠ (l.manager.oper sm b).schedSlot
  deps : ∀ k, l.RealDep k → l.manager.ignore sm k = false →
    (l.cb.dep k).minDelay - (l.cb.dep k).omega * l.cb.ii ≤
      (l.manager.oper sm (l.cb.dep k).toOp).schedCycle -
        (l.manager.oper sm (l.cb.dep k).fromOp).schedCycle

/-- All operations are scheduled but the start and the stop node. -/
def PipeState.Placed (s : PipeState l) : Prop :=
  ∀ o ∈ l.serialOpers, l.startStop o = false → s.place o = some (s.schedCycle o, s.schedSlot o)

theorem PipeLoop.Scheduled.placed (h : l.Scheduled s.sm) : s.Placed := fun o hmem hreal ↦
  if_pos (h.scheduled o hmem hreal)

/-- A complete schedule that the manager keeps is a modulo schedule. -/
theorem PipeState.Placed.scheduled (hm : l.manager.Lawful l.cb Inv) (hcb : l.cb.Sound)
    (hinv : Inv s.sm) (hplaced : s.Placed) : l.Scheduled s.sm where
  scheduled o hmem hreal := (Manager.place_ne_none (by
    rw [show l.manager.place s.sm o = _ from hplaced o hmem hreal]
    simp)).1
  slots a ha b hb hreala hrealb hne hmod hslot := by
    have hplacea := hplaced a ha hreala
    rw [show s.schedSlot a = s.schedSlot b from hslot] at hplacea
    exact hm.slots hinv hne hplacea (hplaced b hb hrealb) hmod
  deps k hk hignore := hm.deps hinv hk.isDep (hcb.hardDep k hk.isDep) hignore
    (hplaced _ hk.fromOp_mem hk.fromOp_real) (hplaced _ hk.toOp_mem hk.toOp_real)

/-- The main loop leaves all operations scheduled. -/
theorem placed_of_smSchedule (hl : l.Sound) (hm : l.manager.Lawful l.cb Inv) {sm : l.manager.State}
    (hinv : Inv sm) (hplace : ∀ o, l.manager.place sm o = none) {info : ℕ → OpInfo} {budget : ℤ}
    {n : ℕ} {x : LoopState l} (hrun : smSchedule l sm info budget n = .ok (.ended x none)) :
    Inv x.pipe.sm ∧ x.pipe.Placed := by
  obtain ⟨r, hr, hrun⟩ := Run.bind_eq_ok.1 hrun
  obtain ⟨late, hlate, hr⟩ := Run.bind_eq_ok.1 hr
  obtain rfl := (int32_eq_ok.1 hlate).2
  obtain rfl := (int32_eq_ok.1 hr).2
  obtain ⟨_, hstart⟩ := pipeInv_startLoop (r := 1000 * l.cb.ii - 1) hl hinv hplace info budget
  obtain ⟨⟨_, hend⟩, hq⟩ := hstart.mainLoop_ended hl hm hrun
  refine ⟨hend.manager, fun o hmem hreal ↦ (Manager.place_ne_none ?_).2⟩
  rcases hend.conserved o hmem hreal (by simp) with hc | hc
  · exact hc.1
  · simp [PipeState.queued, hq] at hc

theorem reschedule_spec (hm : l.manager.Lawful l.cb Inv) (hinv : Inv s.sm) {text : String} {t : ℤ}
    {slot : Sm.Slot} (hrun : reschedule l text s o t (slot : ℕ) = .ok s') :
    Inv s'.sm ∧ s'.place = Function.update s.place o (some (t, slot)) ∧
      ∀ o', (s'.info o').issueSlot = (s.info o').issueSlot := by
  obtain ⟨sm, hun, hrun⟩ := Run.bind_eq_ok.1 hrun
  obtain ⟨⟨sm', ok⟩, hsched, hrun⟩ := Run.bind_eq_ok.1 hrun
  obtain ⟨hinv', hoff⟩ := hm.unschedule hinv hun
  have hslot : ((slot : ℕ) : ℤ) ≤ 65535 := by have := slot.isLt; omega
  obtain ⟨hinv'', -, hon⟩ := hm.schedule hinv' hslot (by omega) hsched
  cases ok with
  | false => cases hrun
  | true =>
    obtain rfl := Except.ok.inj hrun
    obtain ⟨slot', hplace, hmin, hmax⟩ := hon
    obtain rfl : slot' = slot := Fin.ext (by omega)
    refine ⟨hinv'', ?_, fun o' ↦ ?_⟩
    · show l.manager.place sm' = Function.update (l.manager.place s.sm) o _
      rw [hplace, hoff, Function.update_idem]
    · rcases eq_or_ne o' o with rfl | hne
      · simp
      · simp [hne]

/-- What one move does: the slots stay, and so do the cycles of the other operations. -/
structure Move (s s' : PipeState l) (o : ℕ) (δ : ℤ) : Prop where
  place : s'.place o = some (s.schedCycle o + δ, s.schedSlot o)
  frame : ∀ o', o' ≠ o → s'.place o' = s.place o'

theorem Move.of_reschedule (hm : l.manager.Lawful l.cb Inv) (hinv : Inv s.sm) {text : String} {t : ℤ}
    (hrun : reschedule l text s o t (s.schedSlot o : ℕ) = .ok s') :
    Inv s'.sm ∧ Move s s' o (t - s.schedCycle o) ∧
      ∀ o', (s'.info o').issueSlot = (s.info o').issueSlot := by
  obtain ⟨hinv', hplace, hinfo⟩ := reschedule_spec hm hinv hrun
  refine ⟨hinv', ⟨?_, fun o' hne ↦ ?_⟩, hinfo⟩
  · rw [hplace, Function.update_self, add_sub_cancel]
  · rw [hplace, Function.update_of_ne hne]

section Move

variable {δ : ℤ} (h : Move s s' o δ)
include h

theorem Move.schedCycle {o' : ℕ} (hplace : s.place o' = some (s.schedCycle o', s.schedSlot o')) :
    s'.schedCycle o' = s.schedCycle o' + (if o' = o then δ else 0) ∧
      s'.schedSlot o' = s.schedSlot o' := by
  rcases eq_or_ne o' o with rfl | hne
  · rw [if_pos rfl]
    exact PipeState.schedCycle_of_place h.place
  · rw [if_neg hne, add_zero]
    exact PipeState.schedCycle_of_place ((h.frame o' hne).trans hplace)

theorem Move.placed (hplaced : s.Placed) : s'.Placed := by
  intro o' hmem hreal
  obtain ⟨hcycle, hslot⟩ := h.schedCycle (hplaced o' hmem hreal)
  rw [hcycle, hslot]
  rcases eq_or_ne o' o with rfl | hne
  · rw [if_pos rfl]
    exact h.place
  · rw [if_neg hne, add_zero, h.frame o' hne]
    exact hplaced o' hmem hreal

/-- A move later adds to the slack of the dependences into the operation, and takes from the slack of
those out of it. -/
theorem Move.slack (hplaced : s.Placed) (hk : l.RealDep k) :
    s'.slack k = s.slack k + ((if (l.cb.dep k).toOp = o then δ else 0) -
      if (l.cb.dep k).fromOp = o then δ else 0) := by
  rw [PipeState.slack, PipeState.slack, (h.schedCycle (hplaced _ hk.toOp_mem hk.toOp_real)).1,
    (h.schedCycle (hplaced _ hk.fromOp_mem hk.fromOp_real)).1]
  ring

end Move

/-! ### A pass of moves -/

/-- What holds between the calls of a pass that started in `s₀` and moves operations by multiples of
`step`, but not those that are `fixed`. -/
structure Moved (Inv : l.manager.State → Prop) (step : ℤ) (fixed : ℕ → Bool) (s₀ s : PipeState l) :
    Prop where
  manager : Inv s.sm
  stages : ∀ o ∈ l.serialOpers, l.startStop o = false →
    ∃ n : ℕ, s.place o = some (s₀.schedCycle o + n * step, s₀.schedSlot o)
  fixed : ∀ o, fixed o = true → s.place o = s₀.place o
  issueSlot : ∀ o, (s.info o).issueSlot = (s₀.info o).issueSlot

variable {s₀ : PipeState l} {step : ℤ} {fixed : ℕ → Bool}

theorem Moved.refl (hinv : Inv s.sm) (hplaced : s.Placed) : Moved Inv step fixed s s :=
  ⟨hinv, fun o hmem hreal ↦ ⟨0, by simpa using hplaced o hmem hreal⟩, fun _ _ ↦ rfl, fun _ ↦ rfl⟩

theorem Moved.placed (h : Moved Inv step fixed s₀ s) : s.Placed := by
  intro o hmem hreal
  obtain ⟨n, hplace⟩ := h.stages o hmem hreal
  obtain ⟨hcycle, hslot⟩ := PipeState.schedCycle_of_place hplace
  rw [hcycle, hslot, hplace]

/-- One more operation is moved. -/
theorem Moved.reschedule (hm : l.manager.Lawful l.cb Inv) (h : Moved Inv step fixed s₀ s)
    {text : String} {n : ℕ}
    (hrun : reschedule l text s o (s.schedCycle o + n * step) (s.schedSlot o : ℕ) = .ok s')
    (hfixed : fixed o = false) : Moved Inv step fixed s₀ s' ∧ Move s s' o (n * step) := by
  obtain ⟨hinv, hmove, hinfo⟩ := Move.of_reschedule hm h.manager hrun
  rw [add_sub_cancel_left] at hmove
  refine ⟨⟨hinv, fun o' hmem hreal ↦ ?_, fun o' ho' ↦ ?_,
    fun o' ↦ (hinfo o').trans (h.issueSlot o')⟩, hmove⟩
  · obtain ⟨m, hplace⟩ := h.stages o' hmem hreal
    rcases eq_or_ne o' o with rfl | hne
    · obtain ⟨hcycle, hslot⟩ := PipeState.schedCycle_of_place hplace
      refine ⟨m + n, ?_⟩
      rw [hmove.place, hcycle, hslot]
      push_cast
      ring_nf
    · exact ⟨m, (hmove.frame o' hne).trans hplace⟩
  · have hne : o' ≠ o := fun heq ↦ by
      rw [heq, hfixed] at ho'
      cases ho'
    exact (hmove.frame o' hne).trans (h.fixed o' ho')

/-- The kernel is the one that the pass found. -/
theorem Moved.kernel (h : Moved Inv step fixed s₀ s) (hstep : l.cb.ii ∣ step)
    (hmem : o ∈ l.serialOpers) (hreal : l.startStop o = false) :
    s.schedSlot o = s₀.schedSlot o ∧ s.schedCycle o ≡ s₀.schedCycle o [ZMOD l.cb.ii] := by
  obtain ⟨n, hplace⟩ := h.stages o hmem hreal
  obtain ⟨hcycle, hslot⟩ := PipeState.schedCycle_of_place hplace
  refine ⟨hslot, ?_⟩
  rw [hcycle, Int.modEq_iff_dvd, sub_add_cancel_left]
  exact Int.dvd_neg.2 (hstep.mul_left _)

theorem Moved.schedCycle_le (h : Moved Inv step fixed s₀ s) (hstep : step ≤ 0)
    (hmem : o ∈ l.serialOpers) (hreal : l.startStop o = false) :
    s.schedCycle o ≤ s₀.schedCycle o := by
  obtain ⟨n, hplace⟩ := h.stages o hmem hreal
  have := mul_nonpos_of_nonneg_of_nonpos (Int.natCast_nonneg n) hstep
  rw [(PipeState.schedCycle_of_place hplace).1]
  omega

theorem Moved.le_schedCycle (h : Moved Inv step fixed s₀ s) (hstep : 0 ≤ step)
    (hmem : o ∈ l.serialOpers) (hreal : l.startStop o = false) :
    s₀.schedCycle o ≤ s.schedCycle o := by
  obtain ⟨n, hplace⟩ := h.stages o hmem hreal
  have := mul_nonneg (Int.natCast_nonneg n) hstep
  rw [(PipeState.schedCycle_of_place hplace).1]
  omega

end Spec

end OpenImpact.Softpipe
