import OpenImpact.Sched.SmReturns
import OpenImpact.Softpipe.PipeSchedSm

/-!
# The main loop returns

The main loop punts nowhere and follows no `NULL`: a run of it stops early only where an `int` leaves
its range (`smSchedule_returns`). This holds over any schedule manager that punts only when an
operation is scheduled twice or unscheduled without having been scheduled (`Manager.Returns`), and
the one of the program is such a manager (`returns_smManager`). Which sums fit is not said; at an
interval of 2147484 the ready time that the loop starts with does not.

The loop asks the schedule manager to place an operation again only while its slot is `SM_MAX_SLOT`,
so the slots of a cycle have to be below that. With priorities below 10000 a full row has an operation
of low priority to eject (`PipeLoop.InBounds`).
-/

namespace OpenImpact.Softpipe

open Run (Yields)

/-- A schedule manager that punts only when an operation is scheduled twice, or unscheduled without
having been scheduled. -/
structure Manager.Returns (m : Manager) (Inv : m.State → Prop) : Prop where
  schedule : ∀ {s o cycle earliestSlot latestSlot}, Inv s → m.place s o = none →
    earliestSlot ≤ 65535 → 0 ≤ latestSlot →
    (m.scheduleOper s o cycle earliestSlot latestSlot).Yields fun _ ↦ True
  unschedule : ∀ {s o}, Inv s → m.place s o ≠ none → (m.unscheduleOper s o).Yields fun _ ↦ True

/-- The slots of a cycle are not `SM_MAX_SLOT`, and every priority is below the one that the search for
the lowest starts with. -/
structure PipeLoop.InBounds (l : PipeLoop) : Prop where
  slots_lt : l.totalIssueSlots ≤ 65535
  priority_lt : ∀ o ∈ l.serialOpers, l.priority o < 10000

section Returns

variable {l : PipeLoop} {Inv : l.manager.State → Prop} {r : ℤ} {n : ℕ} {cur : Option ℕ}
  {s s' : PipeState l} {o : ℕ}

/-- Operation `o` is being scheduled and has no place. -/
structure Unplaced (l : PipeLoop) (Inv : l.manager.State → Prop) (r : ℤ) (n : ℕ) (o : ℕ)
    (s : PipeState l) : Prop where
  inv : PipeInv l Inv r n (some o) s
  place : s.place o = none

/-- Operation `o` is being scheduled, and its slot shows whether it has a place. -/
structure Tried (l : PipeLoop) (Inv : l.manager.State → Prop) (r : ℤ) (n : ℕ) (o : ℕ)
    (s : PipeState l) : Prop where
  inv : PipeInv l Inv r n (some o) s
  shown : s.schedSlot o = Sm.maxSlot → s.place o = none

theorem Unplaced.tried (h : Unplaced l Inv r n o s) : Tried l Inv r n o s :=
  ⟨h.inv, fun _ ↦ h.place⟩

theorem Tried.unplaced (h : Tried l Inv r n o s) (hslot : s.schedSlot o = Sm.maxSlot) :
    Unplaced l Inv r n o s :=
  ⟨h.inv, h.shown hslot⟩

/-! ### Ready times and ejecting -/

/-- `Lpipe_compute_ready_time` does not call the schedule manager. -/
theorem yields_computeReadyTime (s : PipeState l) (o : ℕ) (t : ℤ) :
    (computeReadyTime l s o t).Yields fun s' ↦ s'.sm = s.sm := by
  refine .foldlM_keeps (fun a _ s₁ h₁ ↦ .foldlM_keeps (fun k _ s₂ h₂ ↦ ?_) h₁) rfl
  rw [readyOut]
  split_ifs
  · exact .ok h₂
  · exact .ok h₂
  · refine (Run.yields_int32 _).bind fun _ _ _ ↦ (Run.yields_int32 _).bind fun _ _ _ ↦
      (Run.yields_int32 _).bind fun _ _ _ ↦ ?_
    split_ifs
    · exact .ok h₂
    · exact .ok h₂

/-- The test of a dependence only computes. -/
theorem yields_dependenceConflict (s : PipeState l) (o : ℕ) (c : ℤ) (k : ℕ) :
    (dependenceConflict l s o c k).Yields fun _ ↦ True := by
  simp only [dependenceConflict]
  split_ifs
  all_goals
    exact (Run.yields_int32 _).bind fun _ _ _ ↦ (Run.yields_int32 _).bind fun _ _ _ ↦
      (Run.yields_int32 _).bind fun _ _ _ ↦ .ok trivial

variable (hl : l.Sound) (hm : l.manager.Lawful l.cb Inv) (hr : l.manager.Returns Inv)

include hm hr

/-- An operation that is flagged as scheduled can be ejected while another one is being scheduled. -/
theorem Unplaced.ejectOper (h : Unplaced l Inv r n o s) {o' : ℕ} (ho' : o' ∈ l.serialOpers)
    (hreal : l.startStop o' = false) (hflag : (s.info o').scheduled = true)
    (hbr : o' ≠ l.loopBackBr) : (ejectOper l s o').Yields (Unplaced l Inv r n o) := by
  have hcur : some o ≠ some o' := fun hc ↦ by simp [h.inv.unflagged o' hc hreal] at hflag
  have hplaced : (Softpipe.ejectOper l s o').Yields fun s' ↦ s'.place o = none := by
    refine (hr.unschedule h.inv.manager (h.inv.flagged o' ho' hreal hcur hflag)).bind
      fun sm hsm _ ↦ .ok ?_
    rw [PipeState.place, (hm.unschedule h.inv.manager hsm).2,
      Function.update_of_ne fun heq ↦ hcur (congrArg some heq)]
    exact h.place
  exact hplaced.of_ok fun s' hs' ↦
    ⟨h.inv.ejectOper hm ho' hreal hflag hbr hs', hplaced.1 s' hs'⟩

include hl

/-- `Lpipe_eject_opers_if_dependence_conflict` for the operation that is being scheduled. -/
theorem Unplaced.ejectOpersIfDependenceConflict (h : Unplaced l Inv r n o s)
    (ho : o ∈ l.serialOpers) (cycle : ℤ) :
    (ejectOpersIfDependenceConflict l o s cycle).Yields (Unplaced l Inv r n o) := by
  refine .foldlM_keeps (fun a ha s₁ h₁ ↦ .foldlM_keeps (fun k hk s₂ h₂ ↦ ?_) h₁) h
  rw [ejectIn]
  split_ifs with hignore hskip
  · exact .ok h₂
  · exact .ok h₂
  · refine (yields_dependenceConflict s₂ o cycle k).bind fun eject _ _ ↦ ?_
    obtain ⟨hflag, hreal⟩ : (s₂.info (l.cb.dep k).fromOp).scheduled = true ∧
        l.startStop (l.cb.dep k).fromOp = false := by simpa using hskip
    split_ifs with heject
    · have hbr : ¬l.isLoopBackBr (l.cb.dep k).fromOp = true := by simp_all
      exact h₂.ejectOper hm hr (hl.fromOp o ho a ha k hk) hreal hflag (ne_loopBackBr hl hbr)
    · exact .ok h₂

/-- `Lpipe_eject_oper_for_resource_conflict`. -/
theorem Unplaced.ejectOperForResourceConflict (h : Unplaced l Inv r n o s) {o' : ℕ}
    (ho' : o' ∈ l.serialOpers) (hreal : l.startStop o' = false)
    (hflag : (s.info o').scheduled = true) :
    (ejectOperForResourceConflict l s o').Yields (Unplaced l Inv r n o) := by
  rw [Softpipe.ejectOperForResourceConflict]
  split_ifs with hbr
  · exact .ok h
  · exact h.ejectOper hm hr ho' hreal hflag (ne_loopBackBr hl hbr)

/-- `Lpipe_eject_opers_if_resource_conflict`. -/
theorem Unplaced.ejectOpersIfResourceConflict (h : Unplaced l Inv r n o s) (cycle : ℤ) :
    (ejectOpersIfResourceConflict l s cycle).Yields (Unplaced l Inv r n o) := by
  refine .foldlM_keeps (fun o' ho' s₁ h₁ ↦ ?_) h
  rw [ejectInRow]
  split_ifs with hskip
  · exact .ok h₁
  · obtain ⟨hflag, hreal⟩ : (s₁.info o').scheduled = true ∧ l.startStop o' = false := by
      simpa using hskip
    exact h₁.ejectOperForResourceConflict hl hm hr ho' hreal hflag
  · exact .ok h₁

/-- The scan of a row, with `os` still to come: a row with operations in it has one of low priority. -/
structure RowUnplaced (l : PipeLoop) (Inv : l.manager.State → Prop) (r : ℤ) (n : ℕ) (o : ℕ)
    (os : List ℕ) (x : RowScan l) : Prop where
  row : RowInv l Inv r n (some o) os x
  place : x.pipe.place o = none
  mem : ∀ o' ∈ os, o' ∈ l.serialOpers
  nodup : os.Nodup
  low : x.lowPriorityOper = none → x.opersInRow = 0 ∧ x.minPriority = 10000

/-- One operation of the row. -/
theorem RowUnplaced.scanRow (hb : l.InBounds) {os : List ℕ} {x : RowScan l} {o' : ℕ}
    (h : RowUnplaced l Inv r n o (o' :: os) x) (row lastSlot : ℤ) :
    (scanRow l row lastSlot x o').Yields (RowUnplaced l Inv r n o os) := by
  have ho' := h.mem o' List.mem_cons_self
  have hmem : ∀ o₁ ∈ os, o₁ ∈ l.serialOpers := fun o₁ ho₁ ↦
    h.mem o₁ (List.mem_cons_of_mem o' ho₁)
  obtain ⟨hout, hnodup⟩ := List.nodup_cons.1 h.nodup
  suffices hx : (Softpipe.scanRow l row lastSlot x o').Yields fun x' ↦
      x'.pipe.place o = none ∧
        (x'.lowPriorityOper = none → x'.opersInRow = 0 ∧ x'.minPriority = 10000) from
    hx.of_ok fun x' hrun ↦ ⟨h.row.scanRow hl hm ho' hout hrun, (hx.1 x' hrun).1, hmem, hnodup,
      (hx.1 x' hrun).2⟩
  rw [Softpipe.scanRow]
  split_ifs with hskip hrow hlast hlow
  · exact .ok ⟨h.place, h.low⟩
  · exact .ok ⟨h.place, h.low⟩
  · obtain ⟨hflag, hreal⟩ : (x.pipe.info o').scheduled = true ∧ l.startStop o' = false := by
      simpa using hskip
    exact ((Unplaced.mk h.row.pipe h.place).ejectOperForResourceConflict hl hm hr ho' hreal
      hflag).bind fun s _ hs ↦ .ok ⟨hs.place, h.low⟩
  · exact .ok ⟨h.place, fun hnone ↦ absurd hnone (Option.some_ne_none o')⟩
  · -- the first operation of a row has a lower priority than the search starts with
    refine .ok ⟨h.place, fun hnone ↦ absurd (Or.inl ?_) hlow⟩
    rw [(h.low hnone).2]
    exact hb.priority_lt o' ho'

/-- `Lpipe_eject_earlier_branches_and_last_slot`. -/
theorem Unplaced.ejectEarlierBranchesAndLastSlot (hb : l.InBounds) (h : Unplaced l Inv r n o s)
    (row lastSlot : ℤ) :
    (ejectEarlierBranchesAndLastSlot l s row lastSlot).Yields (Unplaced l Inv r n o) := by
  have hscan := Yields.foldlM (P := RowUnplaced l Inv r n o) (l := l.serialOpers)
    (a := ⟨s, none, 0, 10000, lastSlot + 1⟩)
    (fun o' os x hx ↦ hx.scanRow hl hm hr hb row lastSlot)
    ⟨⟨h.inv, fun _ ho ↦ nomatch ho⟩, h.place, fun _ ho ↦ ho, hl.nodup, fun _ ↦ ⟨rfl, rfl⟩⟩
  refine hscan.bind fun x _ hx ↦ ?_
  split_ifs with hfull
  · cases hlow : x.lowPriorityOper with
    | none =>
      have hzero := (hx.low hlow).1
      have hone := hl.one_le_slots
      omega
    | some o' =>
      obtain ⟨hmem, hreal, hflag, -⟩ := hx.row.low o' hlow
      exact (Unplaced.mk hx.row.pipe hx.place).ejectOperForResourceConflict hl hm hr hmem hreal hflag
  · exact .ok ⟨hx.row.pipe, hx.place⟩

/-! ### Placing an operation -/

omit hl in
/-- A call that places the operation gives it a slot, and one that does not leaves it without a place. -/
theorem Unplaced.schedule (h : Unplaced l Inv r n o s) {cycle lo hi : ℤ} (hlo : lo ≤ 65535)
    (hhi : 0 ≤ hi) (hlt : hi < 65535)
    (hbr : o = l.loopBackBr → cycle = r ∧ lo = l.totalIssueSlots - 1 ∧ hi = l.totalIssueSlots - 1) :
    (schedule l s o cycle lo hi).Yields fun p ↦ Tried l Inv r n o p.1 ∧
      (p.2 = false → p.1.place o = none) := by
  refine (hr.schedule h.inv.manager h.place hlo hhi).bind fun p hp _ ↦ .ok ?_
  obtain ⟨sm, ok⟩ := p
  have hrun : Softpipe.schedule l s o cycle lo hi = .ok ({ s with sm := sm }, ok) := by
    rw [Softpipe.schedule, hp, Run.ok_bind]
  have hinv := (h.inv.schedule hm hlo hhi hbr hrun).1
  obtain ⟨-, -, hplace⟩ := hm.schedule h.inv.manager hlo hhi hp
  cases ok with
  | false =>
    rw [if_neg Bool.false_ne_true] at hplace
    have hnone : l.manager.place sm o = none := (congrFun hplace o).trans h.place
    exact ⟨⟨hinv, fun _ ↦ hnone⟩, fun _ ↦ hnone⟩
  | true =>
    rw [if_pos rfl] at hplace
    obtain ⟨slot, hplace, -, hmax⟩ := hplace
    refine ⟨⟨hinv, fun hslot ↦ ?_⟩, fun hno ↦ nomatch hno⟩
    have hself : l.manager.place sm o = some (cycle, slot) := by rw [hplace, Function.update_self]
    have heq := (Manager.place_ne_none (by simp [hself])).2.symm.trans hself
    -- a slot that the operation was given is below `SM_MAX_SLOT`
    have hslot' : slot = Sm.maxSlot := (Prod.mk.inj (Option.some.inj heq)).2.symm.trans hslot
    rw [hslot', Sm.val_maxSlot] at hmax
    omega

omit hl in
/-- The attempts in the slots of a cycle. -/
theorem Unplaced.trySlots (h : Unplaced l Inv r n o s) (hbr : o ≠ l.loopBackBr) {cycle : ℤ} {m : ℕ}
    (hle : m ≤ 65535) : (trySlots l o cycle m s).Yields (Tried l Inv r n o) := by
  induction m generalizing s with
  | zero => exact .ok h.tried
  | succ m ih =>
    rw [Softpipe.trySlots]
    refine (h.schedule hm hr (by omega) (by omega) (by omega) fun heq ↦ absurd heq hbr).bind
      fun p _ hp ↦ ?_
    obtain ⟨s₁, ok⟩ := p
    cases ok with
    | true => exact .ok hp.1
    | false => exact ih ⟨hp.1.inv, hp.2 rfl⟩ (by omega)

/-- The attempts in one cycle. -/
theorem Unplaced.tryCycle (hb : l.InBounds) (h : Unplaced l Inv r n o s) (hbr : o ≠ l.loopBackBr)
    (readyTime cycle : ℤ) : (tryCycle l o readyTime s cycle).Yields (Tried l Inv r n o) := by
  have hone := hl.one_le_slots
  have hlt := hb.slots_lt
  have hlatest : latestSlot l s o cycle readyTime ≤ 65534 := by
    rw [latestSlot]
    split_ifs <;> omega
  refine (h.trySlots hm hr hbr (by omega)).bind fun s₁ _ h₁ ↦ ?_
  split_ifs with hlast
  · refine ((h₁.unplaced hlast.1).schedule hm hr (by omega) (by omega) (by omega)
      fun heq ↦ absurd heq hbr).bind fun p _ hp ↦ .ok hp.1
  · exact .ok h₁

/-- A loop over the candidate cycles. -/
theorem Unplaced.tryCycles (hb : l.InBounds) {prepare : PipeState l → ℤ → Run (PipeState l)}
    (hprepare : ∀ s c, Unplaced l Inv r n o s → (prepare s c).Yields (Unplaced l Inv r n o))
    (h : Unplaced l Inv r n o s) (hbr : o ≠ l.loopBackBr) (readyTime : ℤ) {m : ℕ} {cycle : ℤ} :
    (tryCycles l prepare o readyTime m cycle s).Yields fun p ↦ Tried l Inv r n o p.1 := by
  induction m generalizing s cycle with
  | zero => exact .ok h.tried
  | succ m ih =>
    rw [Softpipe.tryCycles]
    refine (hprepare s cycle h).bind fun s₁ _ h₁ ↦ ?_
    refine (h₁.tryCycle hl hm hr hb hbr readyTime cycle).bind fun s₂ _ h₂ ↦ ?_
    split_ifs with hslot
    · exact .ok h₂
    · exact ih (h₂.unplaced (not_not.1 hslot))

/-- A later loop, if the operation is not scheduled yet. -/
theorem Tried.tryPass (hb : l.InBounds) {prepare : PipeState l → ℤ → Run (PipeState l)}
    (hprepare : ∀ s c, Unplaced l Inv r n o s → (prepare s c).Yields (Unplaced l Inv r n o))
    {p : PipeState l × ℤ} (h : Tried l Inv r n o p.1) (hbr : o ≠ l.loopBackBr)
    (readyTime earliestCycle : ℤ) :
    (tryPass l prepare o readyTime earliestCycle p).Yields fun p' ↦ Tried l Inv r n o p'.1 := by
  rw [Softpipe.tryPass]
  split_ifs with hslot
  · exact (h.unplaced hslot).tryCycles hl hm hr hb hprepare hbr readyTime
  · exact .ok h

/-- The three loops for an operation that is not the loop-back branch. -/
theorem Unplaced.placeOper (hb : l.InBounds) (h : Unplaced l Inv r n o s) (ho : o ∈ l.serialOpers)
    (hbr : o ≠ l.loopBackBr) (readyTime : ℤ) :
    (placeOper l s o readyTime).Yields fun _ ↦ True := by
  refine (Run.yields_int32 _).bind fun earliestCycle _ _ ↦ ?_
  refine (h.tryCycles hl hm hr hb (fun _ _ ↦ .ok) hbr readyTime).bind fun p₁ _ h₁ ↦ ?_
  refine (h₁.tryPass hl hm hr hb (fun _ c hs ↦
    hs.ejectOpersIfDependenceConflict hl hm hr ho c) hbr readyTime earliestCycle).bind
    fun p₂ _ h₂ ↦ ?_
  refine (h₂.tryPass hl hm hr hb (fun _ c hs ↦ hs.ejectOpersIfResourceConflict hl hm hr c) hbr
    readyTime earliestCycle).bind fun p₃ _ h₃ ↦ ?_
  split_ifs
  · exact .ok trivial
  · exact .ok trivial

/-- The only place of the loop-back branch. -/
theorem Unplaced.placeLoopBackBr (hb : l.InBounds) (h : Unplaced l Inv r n o s)
    (ho : o ∈ l.serialOpers) (readyTime : ℤ) :
    (placeLoopBackBr l s o readyTime r).Yields fun _ ↦ True := by
  have hone := hl.one_le_slots
  have hlt := hb.slots_lt
  have heject : (ejectForLoopBackBr l s o readyTime r).Yields (Unplaced l Inv r n o) := by
    rw [ejectForLoopBackBr]
    split_ifs
    · exact h.ejectOpersIfDependenceConflict hl hm hr ho readyTime
    · exact .ok h
  refine heject.bind fun s₁ _ h₁ ↦ ?_
  refine (h₁.ejectEarlierBranchesAndLastSlot hl hm hr hb _ _).bind fun s₂ _ h₂ ↦ ?_
  refine (h₂.schedule hm hr (by omega) (by omega) (by omega) fun _ ↦ ⟨rfl, rfl, rfl⟩).bind
    fun p _ _ ↦ ?_
  dsimp only
  split_ifs
  · exact .ok trivial
  · exact .ok trivial

/-! ### The main loop -/

/-- The body of the loop, for an operation that has no place or is the start or the stop node. -/
theorem PipeInv.yields_loopBody (hb : l.InBounds) {x : LoopState l}
    (h : PipeInv l Inv r n (some o) x.pipe) (ho : o ∈ l.serialOpers)
    (hplace : l.startStop o = false → x.pipe.place o = none) :
    (Softpipe.loopBody l r x o).Yields fun _ ↦ True := by
  refine (yields_computeReadyTime x.pipe o r).bind fun s₁ hs₁ hsm ↦ ?_
  have h₁ := h.computeReadyTime hs₁
  have hplace₁ : l.startStop o = false → s₁.place o = none := fun hreal ↦ by
    rw [PipeState.place, hsm]
    exact hplace hreal
  have hattempt : (Softpipe.attempt l s₁ o x.cycle (s₁.info o).readyTime r).Yields
      fun _ ↦ True := by
    rw [Softpipe.attempt]
    split_ifs with hstart hbr
    · exact .ok trivial
    · exact (Unplaced.mk h₁ (hplace₁ (by simpa using hstart))).placeLoopBackBr hl hm hr hb ho _
    · exact (Unplaced.mk h₁ (hplace₁ (by simpa using hstart))).placeOper hl hm hr hb ho hbr _
  refine hattempt.bind fun result _ _ ↦ ?_
  cases result with
  | none => exact .ok trivial
  | some p => exact .ok trivial

omit hl hm hr in
/-- The operation at the head of the queue has no place. -/
theorem PipeInv.place_head (h : PipeInv l Inv r n none s) {q : Qnode} {qs : List Qnode}
    (hq : s.queue = q :: qs) (hreal : l.startStop q.oper = false) : s.place q.oper = none := by
  have hmem : q.oper ∈ s.queued := by simp [PipeState.queued, hq]
  rcases h.conserved _ (h.queued _ hmem) hreal (by simp) with hc | hc
  · exact absurd hmem hc.2
  · exact hc.1

/-- One test of the loop condition, and the body. -/
theorem PipeInv.yields_iteration (hb : l.InBounds) {x : LoopState l}
    (h : PipeInv l Inv r n none x.pipe) : (Softpipe.iteration l r x).Yields fun _ ↦ True := by
  rw [Softpipe.iteration]
  split
  · exact .ok trivial
  · rename_i q qs hq
    dsimp only
    split_ifs
    · have hmem : q.oper ∈ l.serialOpers := h.queued _ (by simp [PipeState.queued, hq])
      exact (h.dequeue hq).yields_loopBody hl hm hr (x := { x with
        pipe := { x.pipe with queue := qs } }) hb hmem fun hreal ↦ h.place_head hq hreal
    · exact .ok trivial

/-- Every number of iterations. -/
theorem PipeInv.yields_mainLoop (hb : l.InBounds) {m : ℕ} {x : LoopState l}
    (h : PipeInv l Inv r n none x.pipe) : (Softpipe.mainLoop l r m x).Yields fun _ ↦ True := by
  induction m generalizing x n with
  | zero => exact .ok trivial
  | succ m ih =>
    rw [Softpipe.mainLoop]
    refine (h.yields_iteration hl hm hr hb).bind fun result hresult _ ↦ ?_
    rcases result with x₁ | ⟨x₁, smOp⟩ | -
    · obtain ⟨⟨n₁, h₁⟩, -⟩ := h.iteration hl hm hresult
      exact ih h₁
    · exact .ok trivial
    · exact .ok trivial

/-- No run of the main loop stops but where an `int` leaves its range, and where the queue runs empty the
loop is modulo scheduled. From some number of iterations on, the loop has ended or the function has
returned 0. -/
theorem smSchedule_returns (hb : l.InBounds) {sm : l.manager.State} (hinv : Inv sm)
    (hplace : ∀ o, l.manager.place sm o = none) (info : ℕ → OpInfo) (budget : ℤ) :
    (∀ m, (smSchedule l sm info budget m).Yields fun x ↦
      ∀ s, x = .ended s none → l.ModuloScheduled s.pipe.sm) ∧
    ∃ N, ∀ m ≥ N, (∃ s smOp, smSchedule l sm info budget m = .ok (.ended s smOp)) ∨
      smSchedule l sm info budget m = .ok .returned ∨
      smSchedule l sm info budget m = .error .overflow := by
  obtain ⟨n₀, hstart⟩ := pipeInv_startLoop (r := 1000 * l.cb.ii - 1) hl hinv hplace info budget
  have hready : (initReadyTime l).Yields fun r ↦ r = 1000 * l.cb.ii - 1 := by
    refine ((Run.yields_int32 _).bind fun _ _ _ ↦ Run.yields_int32 _).of_ok fun r hr ↦ ?_
    obtain ⟨late, hlate, hr⟩ := Run.bind_eq_ok.1 hr
    obtain rfl := (int32_eq_ok.1 hlate).2
    exact (int32_eq_ok.1 hr).2.symm
  have hrun : ∀ m, (smSchedule l sm info budget m).Yields fun x ↦
      (∀ s, x = .ended s none → l.ModuloScheduled s.pipe.sm) ∧
        ((startLoop l sm info (1000 * l.cb.ii - 1) budget).remaining < m → ∀ s, x ≠ .again s) := by
    refine fun m ↦ hready.bind fun r _ hr' ↦ ?_
    subst hr'
    refine (hstart.yields_mainLoop hl hm hr hb).of_ok fun x hx ↦ ⟨fun s hs ↦ ?_, fun hlt s hs ↦ ?_⟩
    · subst hs
      obtain ⟨⟨n', hinv'⟩, hq⟩ := hstart.mainLoop_ended hl hm hx
      exact hinv'.moduloScheduled hl hm hq
    · subst hs
      have := (hstart.mainLoop hl hm hx).2
      omega
  refine ⟨fun m ↦ (hrun m).mono fun x hx ↦ hx.1,
    (startLoop l sm info (1000 * l.cb.ii - 1) budget).remaining + 1, fun m hlt ↦ ?_⟩
  cases hx : smSchedule l sm info budget m with
  | error e => exact Or.inr (Or.inr (congrArg Except.error ((hrun m).2 e hx)))
  | ok x =>
    have hagain := ((hrun m).1 x hx).2 (Nat.lt_of_succ_le hlt)
    rcases x with s | ⟨s, smOp⟩ | -
    · exact absurd rfl (hagain s)
    · exact Or.inl ⟨s, smOp, rfl⟩
    · exact Or.inr (Or.inl rfl)

end Returns

/-! ### The schedule manager of the program -/

section SmManager

variable {cb : Sm.Cb} {R : ResourceMap cb.ii}

/-- The bounds, the resource map and the counts are right. -/
def SmCountedInv (cb : Sm.Cb) (R : ResourceMap cb.ii) (s : (smManager cb R).State) : Prop :=
  SmInv cb R s ∧ Sm.Counted cb s.1

/-- Scheduling an operation that is not scheduled. -/
theorem yields_smScheduleOper (hcb : cb.Sound) (hlisted : cb.Listed) {s : Sm.State × R.Map} {o : ℕ}
    (h : Sm.Counted cb s.1) (hoff : (s.1 o).scheduled = false) (cycle lo hi : ℤ) :
    (smScheduleOper cb R s o cycle lo hi).Yields fun p ↦ Sm.Counted cb p.1.1 := by
  refine (h.scheduleOper hcb hlisted hoff cycle lo hi false _).bind fun p _ hp ↦ ?_
  dsimp only
  split_ifs
  · exact .ok hp
  · exact .ok hp

/-- Unscheduling one that is. -/
theorem yields_smUnscheduleOper (hcb : cb.Sound) (hlisted : cb.Listed) {s : Sm.State × R.Map}
    {o : ℕ} (h : Sm.Counted cb s.1) (hon : (s.1 o).scheduled = true) :
    (smUnscheduleOper cb R s o).Yields fun s' ↦ Sm.Counted cb s'.1 :=
  (h.unscheduleOper hcb hlisted hon).bind fun _ _ h₁ ↦ .ok h₁.1

/-- The main loop can also rely on the counts. -/
theorem lawful_smCountedInv (hcb : cb.Sound) (hcarried : cb.SelfDepsCarried)
    (hlisted : cb.Listed) : (smManager cb R).Lawful cb (SmCountedInv cb R) where
  schedule hinv hlo hhi hrun := by
    obtain ⟨hinv', hplace, hcase⟩ :=
      (lawful_smManager hcb hcarried).schedule hinv.1 hlo hhi hrun
    have hoff := Manager.place_eq_none.1 hplace
    exact ⟨⟨hinv', (yields_smScheduleOper hcb hlisted hinv.2 hoff _ _ _).1 _ hrun⟩, hplace, hcase⟩
  unschedule hinv hrun := by
    obtain ⟨hinv', hplace⟩ := (lawful_smManager hcb hcarried).unschedule hinv.1 hrun
    obtain ⟨s₁, hs₁, -⟩ := Run.bind_eq_ok.1 hrun
    have hon := (Sm.unscheduleOper_cases hcb hs₁).1
    exact ⟨⟨hinv', (yields_smUnscheduleOper hcb hlisted hinv.2 hon).1 _ hrun⟩, hplace⟩
  schedSlot hinv := (lawful_smManager hcb hcarried).schedSlot hinv.1
  slots hinv := (lawful_smManager hcb hcarried).slots hinv.1
  deps hinv := (lawful_smManager hcb hcarried).deps hinv.1

/-- The schedule manager of the program punts only where it is told to. -/
theorem returns_smManager (hcb : cb.Sound) (hlisted : cb.Listed) :
    (smManager cb R).Returns (SmCountedInv cb R) where
  schedule hinv hplace _ _ := (yields_smScheduleOper hcb hlisted hinv.2
    (Manager.place_eq_none.1 hplace) _ _ _).mono fun _ _ ↦ trivial
  unschedule hinv hplace := (yields_smUnscheduleOper hcb hlisted hinv.2
    (Manager.place_ne_none hplace).1).mono fun _ _ ↦ trivial

end SmManager

end OpenImpact.Softpipe
