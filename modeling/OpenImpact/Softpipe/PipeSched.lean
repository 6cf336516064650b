import OpenImpact.Sched.SmBounds

/-!
# Iterative modulo scheduling

The main loop of `Lpipe_sm_schedule` in `l_pipe_sched.c`, scheduling backward and without template
bundling, and the ready queue of `l_pipe_util.c`. The schedule manager it calls is a parameter.
-/

namespace OpenImpact.Softpipe

/-- The schedule manager: its states, what `SM_Oper` and `SM_Dep` show of them, and
`SM_schedule_oper` and `SM_unschedule_oper`. -/
structure Manager where
  State : Type
  oper : State → ℕ → Sm.Oper
  ignore : State → ℕ → Bool
  scheduleOper : State → ℕ → ℤ → ℤ → ℤ → Run (State × Bool)
  unscheduleOper : State → ℕ → Run State

/-- What scheduling a loop does not change: its dependence graph, its operations in serial order,
`L_START_NODE` and `L_STOP_NODE`, `IS_MDES_FLAG_BR`, the flag `loop_back_br` and the priority of
`Softpipe_Op_Info`, the operation `loop_back_br` and `Lpipe_total_issue_slots`. -/
structure PipeLoop where
  manager : Manager
  cb : Sm.Cb
  serialOpers : List ℕ
  startNode : ℕ → Bool
  stopNode : ℕ → Bool
  flagBr : ℕ → Bool
  isLoopBackBr : ℕ → Bool
  priority : ℕ → ℤ
  loopBackBr : ℕ
  totalIssueSlots : ℤ

/-- The fields of `Softpipe_Op_Info` that scheduling changes. -/
structure OpInfo where
  scheduled : Bool
  readyTime : ℤ
  issueTime : ℤ
  intraIterIssueTime : ℤ
  issueSlot : ℤ

/-- `Qnode`. -/
structure Qnode where
  oper : ℕ
  priority : ℤ
  deriving DecidableEq

/-- What scheduling a loop changes. -/
structure PipeState (l : PipeLoop) where
  sm : l.manager.State
  info : ℕ → OpInfo
  queue : List Qnode

/-- The variables of the main loop. -/
structure LoopState (l : PipeLoop) where
  pipe : PipeState l
  cycle : ℤ
  budget : ℤ
  success : Bool

/-! ### The ready queue -/

/-- `Q_priority_enqueue_decreasing`. -/
def enqueueDecreasing : List Qnode → ℕ → ℤ → List Qnode
  | [], oper, priority => [⟨oper, priority⟩]
  | q :: qs, oper, priority =>
    if priority > q.priority then ⟨oper, priority⟩ :: q :: qs
    else q :: enqueueDecreasing qs oper priority

/-! ### The source's functions -/

section Functions

variable (l : PipeLoop)

/-- `L_START_STOP_NODE`. -/
def PipeLoop.startStop (o : ℕ) : Bool :=
  l.startNode o || l.stopNode o

/-- `sched_cycle` of an operation. -/
def PipeState.schedCycle {l : PipeLoop} (s : PipeState l) (o : ℕ) : ℤ :=
  (l.manager.oper s.sm o).schedCycle

/-- `sched_slot` of an operation. -/
def PipeState.schedSlot {l : PipeLoop} (s : PipeState l) (o : ℕ) : Sm.Slot :=
  (l.manager.oper s.sm o).schedSlot

/-- One dependence out of the operation whose ready time is computed. -/
def readyOut (o : ℕ) (s : PipeState l) (k : ℕ) : Run (PipeState l) :=
  let d := l.cb.dep k
  if l.manager.ignore s.sm k then .ok s
  else if !(s.info d.toOp).scheduled || l.startStop d.toOp then .ok s
  else do
    let early ← int32 (s.schedCycle d.toOp - d.minDelay)
    let distance ← int32 (d.omega * l.cb.ii)
    let tempReadyTime ← int32 (early + distance)
    if tempReadyTime < (s.info o).readyTime then
      .ok { s with info := Function.update s.info o { s.info o with readyTime := tempReadyTime } }
    else .ok s

/-- `Lpipe_compute_ready_time`. -/
def computeReadyTime (s : PipeState l) (o : ℕ) (initReadyTime : ℤ) : Run (PipeState l) :=
  (l.cb.oper o).actions.foldlM (fun s a ↦ a.depOut.foldlM (readyOut l o) s)
    { s with info := Function.update s.info o { s.info o with readyTime := initReadyTime } }

/-- An operation is unscheduled and goes back to the queue. -/
def ejectOper (s : PipeState l) (o : ℕ) : Run (PipeState l) := do
  let sm ← l.manager.unscheduleOper s.sm o
  .ok {
    sm := sm
    info := Function.update s.info o { s.info o with
      scheduled := false
      issueTime := -1
      intraIterIssueTime := -1 }
    queue := enqueueDecreasing s.queue o (l.priority o) }

/-- `eject_oper`: whether dependence `k` into `o` is not met with `o` in the desired cycle. -/
def dependenceConflict (s : PipeState l) (o : ℕ) (desiredCycle : ℤ) (k : ℕ) : Run Bool :=
  let d := l.cb.dep k
  let requiredDelay := if d.minDelay < 0 then 0 else d.minDelay
  if !l.startStop d.fromOp && !l.startStop o then do
    let actualDelay ← int32 (desiredCycle - s.schedCycle d.fromOp)
    let distance ← int32 (d.omega * l.cb.ii)
    let bound ← int32 (requiredDelay - distance)
    .ok (decide (actualDelay < bound ∨
      requiredDelay = 0 ∧ actualDelay = bound ∧ s.schedSlot o < s.schedSlot d.fromOp))
  else do
    let actualDelay ← int32 (desiredCycle - s.schedCycle d.fromOp)
    let distance ← int32 (d.omega * l.cb.ii)
    let bound ← int32 (d.minDelay - distance)
    .ok (decide (actualDelay < bound))

/-- One dependence into the operation for which others are ejected. -/
def ejectIn (o : ℕ) (desiredCycle : ℤ) (s : PipeState l) (k : ℕ) : Run (PipeState l) :=
  let src := (l.cb.dep k).fromOp
  if l.manager.ignore s.sm k then .ok s
  else if !(s.info src).scheduled || l.startStop src then .ok s
  else do
    let eject ← dependenceConflict l s o desiredCycle k
    if eject && !l.isLoopBackBr src then ejectOper l s src else .ok s

/-- `Lpipe_eject_opers_if_dependence_conflict`. -/
def ejectOpersIfDependenceConflict (o : ℕ) (s : PipeState l) (desiredCycle : ℤ) :
    Run (PipeState l) :=
  (l.cb.oper o).actions.foldlM (fun s a ↦ a.depIn.foldlM (ejectIn l o desiredCycle) s) s

/-- `Lpipe_eject_oper_for_resource_conflict`. -/
def ejectOperForResourceConflict (s : PipeState l) (o : ℕ) : Run (PipeState l) :=
  if l.isLoopBackBr o then .ok s else ejectOper l s o

/-- The variables of the loop in `Lpipe_eject_earlier_branches_and_last_slot`. -/
structure RowScan where
  pipe : PipeState l
  lowPriorityOper : Option ℕ
  opersInRow : ℤ
  minPriority : ℤ
  minSlot : ℤ

/-- One operation of the loop in `Lpipe_eject_earlier_branches_and_last_slot`. -/
def scanRow (row lastSlot : ℤ) (r : RowScan l) (o : ℕ) : Run (RowScan l) :=
  if !(r.pipe.info o).scheduled || l.startStop o then .ok r
  else if (r.pipe.schedCycle o).tmod l.cb.ii ≠ row then .ok r
  else if (r.pipe.schedSlot o : ℤ) = lastSlot || l.flagBr o then do
    let s ← ejectOperForResourceConflict l r.pipe o
    .ok { r with pipe := s }
  else if l.priority o < r.minPriority ∨
      l.priority o = r.minPriority ∧ (r.pipe.schedSlot o : ℤ) < r.minSlot then
    .ok { r with
      lowPriorityOper := some o
      opersInRow := r.opersInRow + 1
      minPriority := l.priority o
      minSlot := r.pipe.schedSlot o }
  else .ok { r with opersInRow := r.opersInRow + 1 }

/-- `Lpipe_eject_earlier_branches_and_last_slot`. -/
def ejectEarlierBranchesAndLastSlot (s : PipeState l) (row lastSlot : ℤ) :
    Run (PipeState l) := do
  let r ← l.serialOpers.foldlM (scanRow l row lastSlot) ⟨s, none, 0, 10000, lastSlot + 1⟩
  if r.opersInRow = l.totalIssueSlots then do
    let o ← deref r.lowPriorityOper
    ejectOperForResourceConflict l r.pipe o
  else .ok r.pipe

/-- One operation of the loop in `Lpipe_eject_opers_if_resource_conflict`. -/
def ejectInRow (cycle : ℤ) (s : PipeState l) (o : ℕ) : Run (PipeState l) :=
  if !(s.info o).scheduled || l.startStop o then .ok s
  else if (s.schedCycle o).tmod l.cb.ii = cycle.tmod l.cb.ii then
    ejectOperForResourceConflict l s o
  else .ok s

/-- `Lpipe_eject_opers_if_resource_conflict`. -/
def ejectOpersIfResourceConflict (s : PipeState l) (cycle : ℤ) : Run (PipeState l) :=
  l.serialOpers.foldlM (ejectInRow l cycle) s

/-- `SM_schedule_oper`, in a range of slots. -/
def schedule (s : PipeState l) (o : ℕ) (cycle earliestSlot latestSlot : ℤ) :
    Run (PipeState l × Bool) := do
  let (sm, ok) ← l.manager.scheduleOper s.sm o cycle earliestSlot latestSlot
  .ok ({ s with sm := sm }, ok)

/-- The loop over `test_slot`, of which `n` are left. -/
def trySlots (o : ℕ) (cycle : ℤ) : ℕ → PipeState l → Run (PipeState l)
  | 0, s => .ok s
  | n + 1, s => do
    let (s, ok) ← schedule l s o cycle n n
    if ok then .ok s else trySlots o cycle n s

/-- `latest_slot`. -/
def latestSlot (s : PipeState l) (o : ℕ) (cycle readyTime : ℤ) : ℤ :=
  if cycle = readyTime then
    if ((l.manager.oper s.sm o).upperBound.slot : ℤ) > l.totalIssueSlots - 2 then
      l.totalIssueSlots - 2
    else (l.manager.oper s.sm o).upperBound.slot
  else l.totalIssueSlots - 1

/-- The attempts in one cycle. -/
def tryCycle (o : ℕ) (readyTime : ℤ) (s : PipeState l) (cycle : ℤ) : Run (PipeState l) := do
  let s ← trySlots l o cycle (latestSlot l s o cycle readyTime + 1).toNat s
  if s.schedSlot o = Sm.maxSlot ∧ cycle = readyTime then do
    let (s, _) ← schedule l s o cycle (l.totalIssueSlots - 1) (l.totalIssueSlots - 1)
    .ok s
  else .ok s

/-- One of the loops over the candidate cycles, of which `n` are left. They differ in what they do
before the attempts in a cycle. The result is the state with `cycle`. -/
def tryCycles (prepare : PipeState l → ℤ → Run (PipeState l)) (o : ℕ) (readyTime : ℤ) :
    ℕ → ℤ → PipeState l → Run (PipeState l × ℤ)
  | 0, cycle, s => .ok (s, cycle)
  | n + 1, cycle, s => do
    let s ← prepare s cycle
    let s ← tryCycle l o readyTime s cycle
    if s.schedSlot o ≠ Sm.maxSlot then .ok (s, cycle)
    else tryCycles prepare o readyTime n (cycle - 1) s

/-- A loop over the candidate cycles, if the operation is not scheduled yet. -/
def tryPass (prepare : PipeState l → ℤ → Run (PipeState l)) (o : ℕ) (readyTime earliestCycle : ℤ)
    (p : PipeState l × ℤ) : Run (PipeState l × ℤ) :=
  if p.1.schedSlot o = Sm.maxSlot then
    tryCycles l prepare o readyTime (readyTime - earliestCycle + 1).toNat readyTime p.1
  else .ok p

/-- The branch of the main loop for an operation that is not the loop-back branch. The result is
`none` where the function returns 0. -/
def placeOper (s : PipeState l) (o : ℕ) (readyTime : ℤ) : Run (Option (PipeState l × ℤ)) := do
  let earliestCycle ← int32 (readyTime - l.cb.ii)
  let p ← tryCycles l (fun s _ ↦ .ok s) o readyTime (readyTime - earliestCycle + 1).toNat readyTime s
  let p ← tryPass l (ejectOpersIfDependenceConflict l o) o readyTime earliestCycle p
  let p ← tryPass l (ejectOpersIfResourceConflict l) o readyTime earliestCycle p
  if p.1.schedSlot o = Sm.maxSlot then .ok none else .ok (some p)

/-- The ejections for a loop-back branch that should be earlier than the cycle it goes to. -/
def ejectForLoopBackBr (s : PipeState l) (o : ℕ) (readyTime initReadyTime : ℤ) :
    Run (PipeState l) :=
  if readyTime ≠ initReadyTime then ejectOpersIfDependenceConflict l o s readyTime else .ok s

/-- The branch of the main loop for the loop-back branch. The result is `none` where the function
returns 0. -/
def placeLoopBackBr (s : PipeState l) (o : ℕ) (readyTime initReadyTime : ℤ) :
    Run (Option (PipeState l × ℤ)) := do
  let s ← ejectForLoopBackBr l s o readyTime initReadyTime
  let s ← ejectEarlierBranchesAndLastSlot l s (initReadyTime.tmod l.cb.ii) (l.totalIssueSlots - 1)
  let (s, ok) ← schedule l s o initReadyTime (l.totalIssueSlots - 1) (l.totalIssueSlots - 1)
  if ok then .ok (some (s, initReadyTime)) else .ok none

/-- The branch of the main loop for the start and the stop node. -/
def markStartStop (s : PipeState l) (o : ℕ) (readyTime : ℤ) : PipeState l :=
  { s with info := Function.update s.info o { s.info o with
      scheduled := true
      intraIterIssueTime := readyTime
      issueSlot := if l.stopNode o then l.totalIssueSlots else -1 } }

/-- The attempt to schedule the operation that was dequeued. -/
def attempt (s : PipeState l) (o : ℕ) (cycle readyTime initReadyTime : ℤ) :
    Run (Option (PipeState l × ℤ)) :=
  if l.startStop o then .ok (some (markStartStop l s o readyTime, cycle))
  else if o = l.loopBackBr then placeLoopBackBr l s o readyTime initReadyTime
  else placeOper l s o readyTime

/-- The end of the main loop's body, after the attempt. -/
def recordAttempt (s : LoopState l) (o : ℕ) (p : PipeState l × ℤ) : LoopState l :=
  if p.1.schedSlot o ≠ Sm.maxSlot then { s with
    pipe := { p.1 with info := Function.update p.1.info o { p.1.info o with
      scheduled := true
      issueTime := p.2
      intraIterIssueTime := p.2 } }
    cycle := p.2
    budget := s.budget - 1 }
  else { s with
    pipe := p.1
    cycle := p.2
    success := (p.1.info o).scheduled && s.success }

/-- Where one more test of the loop condition leads. -/
inductive Iteration (l : PipeLoop) where
  /-- To the next test. -/
  | again (s : LoopState l)
  /-- Out of the loop, with what `Q_dequeue` returned. -/
  | ended (s : LoopState l) (smOp : Option ℕ)
  /-- To `return 0`. -/
  | returned

/-- The body of the main loop. -/
def loopBody (initReadyTime : ℤ) (s : LoopState l) (o : ℕ) : Run (Iteration l) := do
  let ready ← computeReadyTime l s.pipe o initReadyTime
  match ← attempt l ready o s.cycle (ready.info o).readyTime initReadyTime with
  | none => .ok .returned
  | some p => .ok (.again (recordAttempt l s o p))

/-- `Q_dequeue`, the loop condition and the body. -/
def iteration (initReadyTime : ℤ) (s : LoopState l) : Run (Iteration l) :=
  match s.pipe.queue with
  | [] => .ok (.ended s none)
  | q :: qs =>
    let s := { s with pipe := { s.pipe with queue := qs } }
    if s.budget > 0 ∧ s.success then loopBody l initReadyTime s q.oper
    else .ok (.ended s (some q.oper))

/-- The main loop after `n` iterations, or where it stopped before. -/
def mainLoop (initReadyTime : ℤ) : ℕ → LoopState l → Run (Iteration l)
  | 0, s => .ok (.again s)
  | n + 1, s => do
    match ← iteration l initReadyTime s with
    | .again s => mainLoop initReadyTime n s
    | .ended s smOp => .ok (.ended s smOp)
    | .returned => .ok .returned

/-- `init_ready_time`, with 1000 for `LARGE_NUMBER`. -/
def initReadyTime : Run ℤ := do
  let late ← int32 (1000 * l.cb.ii)
  int32 (late - 1)

/-- `Lpipe_init_op_info`. -/
def initOpInfo (initReadyTime : ℤ) : OpInfo :=
  ⟨false, initReadyTime, -1, -1, -1⟩

/-- The state at the first test of the loop condition. -/
def startLoop (sm : l.manager.State) (info : ℕ → OpInfo) (initReadyTime budget : ℤ) :
    LoopState l where
  pipe := {
    sm := sm
    info := fun o ↦ if o ∈ l.serialOpers then initOpInfo initReadyTime else info o
    queue := l.serialOpers.reverse.foldl (fun qs o ↦ enqueueDecreasing qs o (l.priority o)) [] }
  cycle := -1
  budget := budget
  success := true

/-- The main loop of `Lpipe_sm_schedule` through `n` iterations. -/
def smSchedule (sm : l.manager.State) (info : ℕ → OpInfo) (budget : ℤ) (n : ℕ) :
    Run (Iteration l) := do
  let initReadyTime ← initReadyTime l
  mainLoop l initReadyTime n (startLoop l sm info initReadyTime budget)

end Functions

end OpenImpact.Softpipe
