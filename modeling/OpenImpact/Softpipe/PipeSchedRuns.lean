import OpenImpact.Softpipe.PipeSched
import OpenImpact.Sched.SmSched
import Mathlib.Data.Int.ModEq
import Mathlib.Data.List.Perm.Basic
import Mathlib.Data.List.Nodup

/-!
# Runs of iterative modulo scheduling

No run of the main loop loses an operation or holds one twice: at every test of the loop condition
an operation is scheduled or in the ready queue once. The loop ends, and what a successful run leaves
is a modulo schedule.

`smSchedule_spec` is over any schedule manager that keeps the laws of `Manager.Lawful`, and the one
of the program is such a manager (`lawful_smManager`). It rests on `PipeInv`, with one lemma for
each function that the loop calls, and on a measure for the end of the loop: the budget with the
start and stop nodes still in the queue. That a run does not stop early is not part of it; nothing
but a sum that leaves the range of `int` stops one (`smSchedule_returns`).
-/

namespace OpenImpact.Softpipe

/-! ### What the schedule manager guarantees -/

/-- Where an operation is scheduled. -/
def Manager.place (m : Manager) (s : m.State) (o : ℕ) : Option (ℤ × Sm.Slot) :=
  if (m.oper s o).scheduled then some ((m.oper s o).schedCycle, (m.oper s o).schedSlot) else none

section Place

variable {m : Manager} {s s' : m.State} {o : ℕ}

theorem Manager.place_eq_some (h : (m.oper s o).scheduled = true) :
    m.place s o = some ((m.oper s o).schedCycle, (m.oper s o).schedSlot) :=
  if_pos h

theorem Manager.place_eq_none : m.place s o = none ↔ (m.oper s o).scheduled = false := by
  rw [Manager.place]
  split_ifs with h <;> simp [h]

/-- An operation that has a place is scheduled there. -/
theorem Manager.scheduled_of_place {p : ℤ × Sm.Slot} (h : m.place s o = some p) :
    (m.oper s o).scheduled = true ∧ ((m.oper s o).schedCycle, (m.oper s o).schedSlot) = p := by
  cases hs : (m.oper s o).scheduled with
  | false => rw [Manager.place_eq_none.2 hs] at h; cases h
  | true => exact ⟨rfl, Option.some.inj ((Manager.place_eq_some hs).symm.trans h)⟩

/-- A place depends on three fields of the operation. -/
theorem Manager.place_congr (h : (m.oper s' o).scheduled = (m.oper s o).scheduled ∧
    (m.oper s' o).schedCycle = (m.oper s o).schedCycle ∧
    (m.oper s' o).schedSlot = (m.oper s o).schedSlot) : m.place s' o = m.place s o := by
  rw [Manager.place, Manager.place, h.1, h.2.1, h.2.2]

/-- One operation is scheduled, and no other one moves. -/
theorem Manager.place_schedule {cycle : ℤ} (hon : (m.oper s' o).scheduled = true)
    (hcycle : (m.oper s' o).schedCycle = cycle)
    (hother : ∀ o' ≠ o, (m.oper s' o').scheduled = (m.oper s o').scheduled ∧
      (m.oper s' o').schedCycle = (m.oper s o').schedCycle ∧
      (m.oper s' o').schedSlot = (m.oper s o').schedSlot) :
    m.place s' = Function.update (m.place s) o (some (cycle, (m.oper s' o).schedSlot)) := by
  funext o'
  by_cases ho' : o' = o
  · subst ho'
    rw [Function.update_self, ← hcycle]
    exact Manager.place_eq_some hon
  · rw [Function.update_of_ne ho']
    exact Manager.place_congr (hother o' ho')

/-- One operation is unscheduled, and no other one moves. -/
theorem Manager.place_unschedule (hoff : (m.oper s' o).scheduled = false)
    (hother : ∀ o' ≠ o, (m.oper s' o').scheduled = (m.oper s o').scheduled ∧
      (m.oper s' o').schedCycle = (m.oper s o').schedCycle ∧
      (m.oper s' o').schedSlot = (m.oper s o').schedSlot) :
    m.place s' = Function.update (m.place s) o none := by
  funext o'
  by_cases ho' : o' = o
  · subst ho'
    rw [Function.update_self]
    exact Manager.place_eq_none.2 hoff
  · rw [Function.update_of_ne ho']
    exact Manager.place_congr (hother o' ho')

end Place

/-- A schedule manager for the dependences of `cb`, with the invariant of its states. A call on an
operation that is scheduled does not return, and one that returns places the operation in the cycle
and the range of slots asked for, or changes no place. -/
structure Manager.Lawful (m : Manager) (cb : Sm.Cb) (Inv : m.State → Prop) : Prop where
  schedule : ∀ {s s' o cycle earliestSlot latestSlot ok}, Inv s → earliestSlot ≤ 65535 →
    0 ≤ latestSlot → m.scheduleOper s o cycle earliestSlot latestSlot = .ok (s', ok) →
    Inv s' ∧ m.place s o = none ∧ if ok then ∃ slot : Sm.Slot,
      m.place s' = Function.update (m.place s) o (some (cycle, slot)) ∧
        earliestSlot ≤ ((slot : ℕ) : ℤ) ∧ ((slot : ℕ) : ℤ) ≤ latestSlot
    else m.place s' = m.place s
  unschedule : ∀ {s s' o}, Inv s → m.unscheduleOper s o = .ok s' →
    Inv s' ∧ m.place s' = Function.update (m.place s) o none
  schedSlot : ∀ {s o}, Inv s → m.place s o = none → (m.oper s o).schedSlot = Sm.maxSlot
  slots : ∀ {s a b cycle cycle' slot}, Inv s → a ≠ b → m.place s a = some (cycle, slot) →
    m.place s b = some (cycle', slot) → ¬cycle ≡ cycle' [ZMOD cb.ii]
  deps : ∀ {s k source sink}, Inv s → cb.IsDep k → (cb.dep k).hardDep = true →
    m.ignore s k = false → m.place s (cb.dep k).fromOp = some source →
    m.place s (cb.dep k).toOp = some sink →
    (cb.dep k).minDelay - (cb.dep k).omega * cb.ii ≤ sink.1 - source.1

/-! ### The invariant -/

section Invariant

variable {l : PipeLoop}

/-- Where an operation is scheduled. -/
def PipeState.place (s : PipeState l) (o : ℕ) : Option (ℤ × Sm.Slot) :=
  l.manager.place s.sm o

/-- The operations in the ready queue. -/
def PipeState.queued (s : PipeState l) : List ℕ :=
  s.queue.map Qnode.oper

/-- An operation is scheduled and not in the ready queue, or in the ready queue once. -/
def PipeState.Conserved (s : PipeState l) (o : ℕ) : Prop :=
  s.place o ≠ none ∧ o ∉ s.queued ∨ s.place o = none ∧ s.queued.count o = 1

/-- What holds between the calls of the main loop, while `cur` is the operation being scheduled.
The flags of `Softpipe_Op_Info` agree with the schedule as far as ejecting relies on them, and start
and stop nodes, of which `starts` are in the queue, do not go back to it. -/
structure PipeInv (l : PipeLoop) (Inv : l.manager.State → Prop) (initReadyTime : ℤ) (starts : ℕ)
    (cur : Option ℕ) (s : PipeState l) : Prop where
  manager : Inv s.sm
  conserved : ∀ o ∈ l.serialOpers, l.startStop o = false → cur ≠ some o → s.Conserved o
  flagged : ∀ o ∈ l.serialOpers, l.startStop o = false → cur ≠ some o →
    (s.info o).scheduled = true → s.place o ≠ none
  queued : ∀ o ∈ s.queued, o ∈ l.serialOpers
  countP : s.queued.countP l.startStop = starts
  notMem : ∀ o, cur = some o → l.startStop o = false → o ∉ s.queued
  unflagged : ∀ o, cur = some o → l.startStop o = false → (s.info o).scheduled = false
  branch : ∀ cycle slot, s.place l.loopBackBr = some (cycle, slot) →
    cycle = initReadyTime ∧ ((slot : ℕ) : ℤ) = l.totalIssueSlots - 1

/-- A loop as `Lpipe_sm_schedule` gets it: the loop-back branch is one of its operations and has its
flag, the operations of a dependence are in the loop, and there are as many issue slots as an
`unsigned short` can tell apart. -/
structure PipeLoop.Sound (l : PipeLoop) : Prop where
  nodup : l.serialOpers.Nodup
  loopBackBr_mem : l.loopBackBr ∈ l.serialOpers
  loopBackBr_real : l.startStop l.loopBackBr = false
  loopBackBr : l.isLoopBackBr l.loopBackBr = true
  fromOp : ∀ o ∈ l.serialOpers, ∀ a ∈ (l.cb.oper o).actions, ∀ k ∈ a.depIn,
    (l.cb.dep k).fromOp ∈ l.serialOpers
  one_le_slots : 1 ≤ l.totalIssueSlots
  slots_le : l.totalIssueSlots ≤ 65536

/-- Entering an operation in the queue adds it. -/
theorem enqueueDecreasing_perm (qs : List Qnode) (o : ℕ) (p : ℤ) :
    (enqueueDecreasing qs o p).Perm (⟨o, p⟩ :: qs) := by
  induction qs with
  | nil => exact .refl _
  | cons q qs ih =>
    rw [enqueueDecreasing]
    split_ifs
    · exact .refl _
    · exact (ih.cons q).trans (.swap _ _ _)

variable {Inv : l.manager.State → Prop} {r : ℤ} {n : ℕ} {cur : Option ℕ} {s s' : PipeState l} {o : ℕ}

/-- The flags `scheduled` are all of `Softpipe_Op_Info` that the invariant depends on. -/
theorem PipeInv.setInfo (h : PipeInv l Inv r n cur s) {info : ℕ → OpInfo}
    (hinfo : ∀ o, (info o).scheduled = (s.info o).scheduled) :
    PipeInv l Inv r n cur { s with info := info } where
  manager := h.manager
  conserved := h.conserved
  flagged o ho hreal hcur hflag := h.flagged o ho hreal hcur (hinfo o ▸ hflag)
  queued := h.queued
  countP := h.countP
  notMem := h.notMem
  unflagged o hcur hreal := (hinfo o).trans (h.unflagged o hcur hreal)
  branch := h.branch

/-- A ready time is no part of what the invariant says. -/
theorem scheduled_setReadyTime (info : ℕ → OpInfo) (o : ℕ) (t : ℤ) (o' : ℕ) :
    (Function.update info o { info o with readyTime := t } o').scheduled =
      (info o').scheduled := by
  by_cases ho : o' = o
  · subst ho
    rw [Function.update_self]
  · rw [Function.update_of_ne ho]

/-- One dependence in the computation of a ready time keeps the invariant. -/
theorem PipeInv.readyOut (h : PipeInv l Inv r n cur s) {k : ℕ}
    (hrun : readyOut l o s k = .ok s') : PipeInv l Inv r n cur s' := by
  rw [Softpipe.readyOut] at hrun
  split_ifs at hrun
  · exact Except.ok.inj hrun ▸ h
  · exact Except.ok.inj hrun ▸ h
  · obtain ⟨early, -, hrun⟩ := Run.bind_eq_ok.1 hrun
    obtain ⟨distance, -, hrun⟩ := Run.bind_eq_ok.1 hrun
    obtain ⟨t, -, hrun⟩ := Run.bind_eq_ok.1 hrun
    split_ifs at hrun
    · exact Except.ok.inj hrun ▸ h.setInfo (scheduled_setReadyTime _ _ _)
    · exact Except.ok.inj hrun ▸ h

/-- `Lpipe_compute_ready_time` keeps the invariant. -/
theorem PipeInv.computeReadyTime (h : PipeInv l Inv r n cur s) {t : ℤ}
    (hrun : computeReadyTime l s o t = .ok s') : PipeInv l Inv r n cur s' :=
  Run.foldlM_keeps (P := PipeInv l Inv r n cur)
    (fun _ _ _ _ hs hin ↦ Run.foldlM_keeps (fun _ _ _ _ hs ↦ hs.readyOut) hs hin)
    (h.setInfo (scheduled_setReadyTime _ _ _)) hrun

/-! ### Ejecting -/

/-- An ejected operation is in the queue once more. -/
theorem queued_eject (s : PipeState l) (o : ℕ) (p : ℤ) :
    ((enqueueDecreasing s.queue o p).map Qnode.oper).Perm (o :: s.queued) :=
  (enqueueDecreasing_perm s.queue o p).map Qnode.oper

/-- An operation that is flagged as scheduled can be ejected. -/
theorem PipeInv.ejectOper (hm : l.manager.Lawful l.cb Inv) (h : PipeInv l Inv r n cur s)
    (ho : o ∈ l.serialOpers) (hreal : l.startStop o = false) (hflag : (s.info o).scheduled = true)
    (hbr : o ≠ l.loopBackBr) (hrun : ejectOper l s o = .ok s') : PipeInv l Inv r n cur s' := by
  obtain ⟨sm, hsm, hrun⟩ := Run.bind_eq_ok.1 hrun
  obtain ⟨hinv, hplace⟩ := hm.unschedule h.manager hsm
  obtain rfl := Except.ok.inj hrun
  have hcur : cur ≠ some o := fun hc ↦ by simp [h.unflagged o hc hreal] at hflag
  have hout : o ∉ s.queued := by
    rcases h.conserved o ho hreal hcur with hc | hc
    · exact hc.2
    · exact absurd hc.1 (h.flagged o ho hreal hcur hflag)
  have hqueued := queued_eject s o (l.priority o)
  have hplace' : ∀ o', l.manager.place sm o' = if o' = o then none else s.place o' := fun o' ↦ by
    rw [hplace, Function.update_apply]
    rfl
  refine ⟨hinv, fun o' ho' hreal' hcur' ↦ ?_, fun o' ho' hreal' hcur' hflag' ↦ ?_, fun o' ho' ↦ ?_,
    ?_, fun o' hc hreal' ho' ↦ ?_, fun o' hc hreal' ↦ ?_, fun cycle slot hp ↦ ?_⟩
  · rw [PipeState.Conserved, PipeState.place, hplace', PipeState.queued, hqueued.mem_iff,
      hqueued.count_eq]
    by_cases heq : o' = o
    · subst heq
      exact Or.inr ⟨if_pos rfl, by rw [List.count_cons_self, List.count_eq_zero_of_not_mem hout]⟩
    · rw [if_neg heq, List.mem_cons, List.count_cons_of_ne (Ne.symm heq), or_iff_right heq]
      exact h.conserved o' ho' hreal' hcur'
  · rw [PipeState.place, hplace']
    by_cases heq : o' = o
    · subst heq
      simp at hflag'
    · rw [if_neg heq]
      dsimp only at hflag'
      rw [Function.update_of_ne heq] at hflag'
      exact h.flagged o' ho' hreal' hcur' hflag'
  · rcases List.mem_cons.1 (hqueued.mem_iff.1 ho') with rfl | ho'
    · exact ho
    · exact h.queued o' ho'
  · rw [PipeState.queued, hqueued.countP_eq, List.countP_cons_of_neg (by simp [hreal])]
    exact h.countP
  · rcases List.mem_cons.1 (hqueued.mem_iff.1 ho') with rfl | ho'
    · exact hcur hc
    · exact h.notMem o' hc hreal' ho'
  · have heq : o' ≠ o := fun heq ↦ hcur (heq ▸ hc)
    dsimp only
    rw [Function.update_of_ne heq]
    exact h.unflagged o' hc hreal'
  · rw [PipeState.place, hplace', if_neg hbr.symm] at hp
    exact h.branch cycle slot hp

variable (hl : l.Sound) (hm : l.manager.Lawful l.cb Inv)

include hl in
/-- The operations that are ejected are not the loop-back branch. -/
theorem ne_loopBackBr (h : ¬l.isLoopBackBr o = true) : o ≠ l.loopBackBr :=
  fun heq ↦ h (heq ▸ hl.loopBackBr)

include hl hm

/-- One dependence into the operation for which others are ejected. -/
theorem PipeInv.ejectIn (h : PipeInv l Inv r n cur s) {cycle : ℤ} {k : ℕ}
    (hk : (l.cb.dep k).fromOp ∈ l.serialOpers) (hrun : ejectIn l o cycle s k = .ok s') :
    PipeInv l Inv r n cur s' := by
  rw [Softpipe.ejectIn] at hrun
  split_ifs at hrun with hignore hskip
  · exact Except.ok.inj hrun ▸ h
  · exact Except.ok.inj hrun ▸ h
  · obtain ⟨eject, -, hrun⟩ := Run.bind_eq_ok.1 hrun
    obtain ⟨hflag, hreal⟩ : (s.info (l.cb.dep k).fromOp).scheduled = true ∧
        l.startStop (l.cb.dep k).fromOp = false := by simpa using hskip
    split_ifs at hrun with heject
    · have hbr : ¬l.isLoopBackBr (l.cb.dep k).fromOp = true := by simp_all
      exact h.ejectOper hm hk hreal hflag (ne_loopBackBr hl hbr) hrun
    · exact Except.ok.inj hrun ▸ h

/-- `Lpipe_eject_opers_if_dependence_conflict` keeps the invariant. -/
theorem PipeInv.ejectOpersIfDependenceConflict (h : PipeInv l Inv r n cur s) {cycle : ℤ}
    (ho : o ∈ l.serialOpers) (hrun : ejectOpersIfDependenceConflict l o s cycle = .ok s') :
    PipeInv l Inv r n cur s' :=
  Run.foldlM_keeps (fun a ha _ _ hs hin ↦ Run.foldlM_keeps
    (fun k hk _ _ hs ↦ hs.ejectIn hl hm (hl.fromOp o ho a ha k hk)) hs hin) h hrun

/-- `Lpipe_eject_oper_for_resource_conflict` keeps the invariant for an operation that is scheduled. -/
theorem PipeInv.ejectOperForResourceConflict (h : PipeInv l Inv r n cur s)
    (ho : o ∈ l.serialOpers) (hreal : l.startStop o = false) (hflag : (s.info o).scheduled = true)
    (hrun : ejectOperForResourceConflict l s o = .ok s') : PipeInv l Inv r n cur s' := by
  rw [Softpipe.ejectOperForResourceConflict] at hrun
  split_ifs at hrun with hbr
  · exact Except.ok.inj hrun ▸ h
  · exact h.ejectOper hm ho hreal hflag (ne_loopBackBr hl hbr) hrun

/-- `Lpipe_eject_opers_if_resource_conflict` keeps the invariant. -/
theorem PipeInv.ejectOpersIfResourceConflict (h : PipeInv l Inv r n cur s) {cycle : ℤ}
    (hrun : ejectOpersIfResourceConflict l s cycle = .ok s') : PipeInv l Inv r n cur s' := by
  refine Run.foldlM_keeps (P := PipeInv l Inv r n cur) (fun o ho s₁ s₂ hs hrow ↦ ?_) h hrun
  rw [ejectInRow] at hrow
  split_ifs at hrow with hskip
  · exact Except.ok.inj hrow ▸ hs
  · obtain ⟨hflag, hreal⟩ : (s₁.info o).scheduled = true ∧ l.startStop o = false := by
      simpa using hskip
    exact hs.ejectOperForResourceConflict hl hm ho hreal hflag hrow
  · exact Except.ok.inj hrow ▸ hs

omit hl hm in
/-- Ejecting an operation changes the fields of no other one. -/
theorem info_ejectOperForResourceConflict {o' : ℕ} (hne : o' ≠ o)
    (hrun : Softpipe.ejectOperForResourceConflict l s o = .ok s') : s'.info o' = s.info o' := by
  rw [Softpipe.ejectOperForResourceConflict] at hrun
  split_ifs at hrun
  · rw [← Except.ok.inj hrun]
  · obtain ⟨sm, -, hrun⟩ := Run.bind_eq_ok.1 hrun
    rw [← Except.ok.inj hrun]
    exact Function.update_of_ne hne _ _

/-- The scan of a row keeps the invariant, and what it found is still scheduled: only operations that
the scan is at are ejected, and `os` are still to come. -/
structure RowInv (l : PipeLoop) (Inv : l.manager.State → Prop) (r : ℤ) (n : ℕ) (cur : Option ℕ)
    (os : List ℕ) (x : RowScan l) : Prop where
  pipe : PipeInv l Inv r n cur x.pipe
  low : ∀ o, x.lowPriorityOper = some o → o ∈ l.serialOpers ∧ l.startStop o = false ∧
    (x.pipe.info o).scheduled = true ∧ o ∉ os

omit hl hm in
theorem RowInv.tail {os : List ℕ} {x : RowScan l} (h : RowInv l Inv r n cur (o :: os) x) :
    RowInv l Inv r n cur os x where
  pipe := h.pipe
  low o' ho' := by
    obtain ⟨hmem, hreal, hflag, hout⟩ := h.low o' ho'
    exact ⟨hmem, hreal, hflag, fun h ↦ hout (List.mem_cons_of_mem _ h)⟩

/-- One operation of the row keeps what the scan relies on. -/
theorem RowInv.scanRow {os : List ℕ} {x x' : RowScan l} {row lastSlot : ℤ}
    (h : RowInv l Inv r n cur (o :: os) x) (ho : o ∈ l.serialOpers) (hout : o ∉ os)
    (hrun : scanRow l row lastSlot x o = .ok x') : RowInv l Inv r n cur os x' := by
  rw [Softpipe.scanRow] at hrun
  split_ifs at hrun with hskip
  · exact Except.ok.inj hrun ▸ h.tail
  · exact Except.ok.inj hrun ▸ h.tail
  all_goals
    obtain ⟨hflag, hreal⟩ : (x.pipe.info o).scheduled = true ∧ l.startStop o = false := by
      simpa using hskip
  · obtain ⟨s, hs, hrun⟩ := Run.bind_eq_ok.1 hrun
    obtain rfl := Except.ok.inj hrun
    refine ⟨h.pipe.ejectOperForResourceConflict hl hm ho hreal hflag hs, fun o' ho' ↦ ?_⟩
    obtain ⟨hmem, hreal', hflag', hout'⟩ := h.low o' ho'
    rw [List.mem_cons, not_or] at hout'
    exact ⟨hmem, hreal', (info_ejectOperForResourceConflict hout'.1 hs) ▸ hflag', hout'.2⟩
  · obtain rfl := Except.ok.inj hrun
    refine ⟨h.pipe, fun o' ho' ↦ ?_⟩
    obtain rfl := Option.some.inj ho'
    exact ⟨ho, hreal, hflag, hout⟩
  · obtain rfl := Except.ok.inj hrun
    exact ⟨h.pipe, h.tail.low⟩

/-- So does the whole row. -/
theorem RowInv.scan {os : List ℕ} {x x' : RowScan l} {row lastSlot : ℤ}
    (h : RowInv l Inv r n cur os x) (hmem : ∀ o ∈ os, o ∈ l.serialOpers) (hnodup : os.Nodup)
    (hrun : os.foldlM (Softpipe.scanRow l row lastSlot) x = .ok x') :
    RowInv l Inv r n cur [] x' := by
  induction os generalizing x with
  | nil => exact Except.ok.inj hrun ▸ h
  | cons o os ih =>
    rw [List.foldlM_cons] at hrun
    obtain ⟨x₁, hx₁, hrest⟩ := Run.bind_eq_ok.1 hrun
    obtain ⟨hout, hnodup⟩ := List.nodup_cons.1 hnodup
    exact ih (h.scanRow hl hm (hmem o List.mem_cons_self) hout hx₁)
      (fun o' ho' ↦ hmem o' (List.mem_cons_of_mem o ho')) hnodup hrest

/-- `Lpipe_eject_earlier_branches_and_last_slot` keeps the invariant. -/
theorem PipeInv.ejectEarlierBranchesAndLastSlot (h : PipeInv l Inv r n cur s) {row lastSlot : ℤ}
    (hrun : ejectEarlierBranchesAndLastSlot l s row lastSlot = .ok s') :
    PipeInv l Inv r n cur s' := by
  obtain ⟨x, hscan, hrun⟩ := Run.bind_eq_ok.1 hrun
  have hx : RowInv l Inv r n cur [] x :=
    RowInv.scan hl hm ⟨h, fun o ho ↦ by cases ho⟩ (fun _ ho ↦ ho) hl.nodup hscan
  split_ifs at hrun
  · obtain ⟨o, ho, hrun⟩ := Run.bind_eq_ok.1 hrun
    obtain ⟨hmem, hreal, hflag, -⟩ := hx.low o (deref_eq_ok.1 ho)
    exact hx.pipe.ejectOperForResourceConflict hl hm hmem hreal hflag hrun
  · exact Except.ok.inj hrun ▸ hx.pipe

/-! ### Placing an operation -/

omit hl in
/-- Placing the operation that is being scheduled, the loop-back branch in its slot only. -/
theorem PipeInv.schedule (h : PipeInv l Inv r n (some o) s) {cycle lo hi : ℤ} {ok : Bool}
    (hlo : lo ≤ 65535) (hhi : 0 ≤ hi)
    (hbr : o = l.loopBackBr → cycle = r ∧ lo = l.totalIssueSlots - 1 ∧ hi = l.totalIssueSlots - 1)
    (hrun : schedule l s o cycle lo hi = .ok (s', ok)) :
    PipeInv l Inv r n (some o) s' ∧ (ok = true → s'.place o ≠ none) := by
  obtain ⟨⟨sm, b⟩, hsm, hrun⟩ := Run.bind_eq_ok.1 hrun
  obtain ⟨rfl, rfl⟩ := Prod.mk.inj (Except.ok.inj hrun)
  obtain ⟨hinv, -, hplace⟩ := hm.schedule h.manager hlo hhi hsm
  cases b with
  | false =>
    rw [if_neg Bool.false_ne_true] at hplace
    have hplace' : ∀ o', PipeState.place { s with sm := sm } o' = s.place o' := fun o' ↦
      congrFun hplace o'
    refine ⟨⟨hinv, fun o' ho' hreal hcur ↦ ?_, fun o' ho' hreal hcur hflag ↦ ?_, h.queued, h.countP,
      h.notMem, h.unflagged, fun c slot hp ↦ ?_⟩, fun h ↦ absurd h Bool.false_ne_true⟩
    · rw [PipeState.Conserved, hplace']
      exact h.conserved o' ho' hreal hcur
    · rw [hplace']
      exact h.flagged o' ho' hreal hcur hflag
    · rw [hplace'] at hp
      exact h.branch c slot hp
  | true =>
    rw [if_pos rfl] at hplace
    obtain ⟨slot, hplace, hmin, hmax⟩ := hplace
    have hplace' : ∀ o', PipeState.place { s with sm := sm } o' =
        if o' = o then some (cycle, slot) else s.place o' := fun o' ↦ by
      rw [PipeState.place, hplace, Function.update_apply]
      rfl
    refine ⟨⟨hinv, fun o' ho' hreal hcur ↦ ?_, fun o' ho' hreal hcur hflag ↦ ?_, h.queued, h.countP,
      h.notMem, h.unflagged, fun c slot' hp ↦ ?_⟩, fun _ ↦ by rw [hplace', if_pos rfl]; simp⟩
    · have hne : o' ≠ o := fun heq ↦ hcur (heq ▸ rfl)
      rw [PipeState.Conserved, hplace', if_neg hne]
      exact h.conserved o' ho' hreal hcur
    · have hne : o' ≠ o := fun heq ↦ hcur (heq ▸ rfl)
      rw [hplace', if_neg hne]
      exact h.flagged o' ho' hreal hcur hflag
    · rw [hplace'] at hp
      split_ifs at hp with heq
      · obtain ⟨rfl, rfl⟩ := Prod.mk.inj (Option.some.inj hp)
        obtain ⟨hcycle, hlo, hhi⟩ := hbr heq.symm
        exact ⟨hcycle, by omega⟩
      · exact h.branch c slot' hp

omit hl in
/-- The attempts in the slots of a cycle keep the invariant. -/
theorem PipeInv.trySlots {cycle : ℤ} {m : ℕ} (h : PipeInv l Inv r n (some o) s)
    (hbr : o ≠ l.loopBackBr) (hle : m ≤ 65536) (hrun : trySlots l o cycle m s = .ok s') :
    PipeInv l Inv r n (some o) s' := by
  induction m generalizing s with
  | zero => exact Except.ok.inj hrun ▸ h
  | succ m ih =>
    rw [Softpipe.trySlots] at hrun
    obtain ⟨⟨s₁, ok⟩, hs₁, hrun⟩ := Run.bind_eq_ok.1 hrun
    have h₁ := (h.schedule hm (by omega) (by omega) (fun heq ↦ absurd heq hbr) hs₁).1
    dsimp only at hrun
    split_ifs at hrun
    · exact Except.ok.inj hrun ▸ h₁
    · exact ih h₁ (by omega) hrun

omit hm in
/-- The latest slot is a slot. -/
theorem latestSlot_le (s : PipeState l) (o : ℕ) (cycle readyTime : ℤ) :
    latestSlot l s o cycle readyTime ≤ 65535 := by
  have := hl.slots_le
  rw [latestSlot]
  split_ifs <;> omega

/-- The attempts in a cycle keep the invariant. -/
theorem PipeInv.tryCycle {cycle readyTime : ℤ} (h : PipeInv l Inv r n (some o) s)
    (hbr : o ≠ l.loopBackBr) (hrun : tryCycle l o readyTime s cycle = .ok s') :
    PipeInv l Inv r n (some o) s' := by
  obtain ⟨s₁, hs₁, hrun⟩ := Run.bind_eq_ok.1 hrun
  have hlatest := latestSlot_le hl s o cycle readyTime
  have h₁ := h.trySlots hm hbr (by omega) hs₁
  split_ifs at hrun
  · obtain ⟨⟨s₂, ok⟩, hs₂, hrun⟩ := Run.bind_eq_ok.1 hrun
    have hone := hl.one_le_slots
    have hle := hl.slots_le
    exact Except.ok.inj hrun ▸
      (h₁.schedule hm (by omega) (by omega) (fun heq ↦ absurd heq hbr) hs₂).1
  · exact Except.ok.inj hrun ▸ h₁

/-- A loop over the candidate cycles keeps the invariant if what it does first in a cycle does. -/
theorem PipeInv.tryCycles {prepare : PipeState l → ℤ → Run (PipeState l)} {readyTime cycle : ℤ}
    {m : ℕ} {p : PipeState l × ℤ} (h : PipeInv l Inv r n (some o) s) (hbr : o ≠ l.loopBackBr)
    (hprepare : ∀ {s s' c}, PipeInv l Inv r n (some o) s → prepare s c = .ok s' →
      PipeInv l Inv r n (some o) s')
    (hrun : tryCycles l prepare o readyTime m cycle s = .ok p) :
    PipeInv l Inv r n (some o) p.1 := by
  induction m generalizing s cycle with
  | zero => exact Except.ok.inj hrun ▸ h
  | succ m ih =>
    rw [Softpipe.tryCycles] at hrun
    obtain ⟨s₁, hs₁, hrun⟩ := Run.bind_eq_ok.1 hrun
    obtain ⟨s₂, hs₂, hrun⟩ := Run.bind_eq_ok.1 hrun
    have h₂ := (hprepare h hs₁).tryCycle hl hm hbr hs₂
    split_ifs at hrun
    · exact Except.ok.inj hrun ▸ h₂
    · exact ih h₂ hrun

/-- So does each of the three loops, whatever it ejects before the attempts. -/
theorem PipeInv.tryPass {prepare : PipeState l → ℤ → Run (PipeState l)} {readyTime earliest : ℤ}
    {p p' : PipeState l × ℤ} (h : PipeInv l Inv r n (some o) p.1) (hbr : o ≠ l.loopBackBr)
    (hprepare : ∀ {s s' c}, PipeInv l Inv r n (some o) s → prepare s c = .ok s' →
      PipeInv l Inv r n (some o) s')
    (hrun : tryPass l prepare o readyTime earliest p = .ok p') :
    PipeInv l Inv r n (some o) p'.1 := by
  rw [Softpipe.tryPass] at hrun
  split_ifs at hrun
  · exact h.tryCycles hl hm hbr hprepare hrun
  · exact Except.ok.inj hrun ▸ h

/-- An operation that is placed is scheduled, and the invariant holds. -/
theorem PipeInv.placeOper {readyTime : ℤ} {p : PipeState l × ℤ}
    (h : PipeInv l Inv r n (some o) s) (ho : o ∈ l.serialOpers) (hbr : o ≠ l.loopBackBr)
    (hrun : placeOper l s o readyTime = .ok (some p)) :
    PipeInv l Inv r n (some o) p.1 ∧ p.1.place o ≠ none ∧ p.1.schedSlot o ≠ Sm.maxSlot := by
  obtain ⟨earliest, -, hrun⟩ := Run.bind_eq_ok.1 hrun
  obtain ⟨p₁, hp₁, hrun⟩ := Run.bind_eq_ok.1 hrun
  obtain ⟨p₂, hp₂, hrun⟩ := Run.bind_eq_ok.1 hrun
  obtain ⟨p₃, hp₃, hrun⟩ := Run.bind_eq_ok.1 hrun
  have h₁ := h.tryCycles hl hm hbr (fun hs heq ↦ Except.ok.inj heq ▸ hs) hp₁
  have h₂ := h₁.tryPass hl hm hbr
    (fun hs heject ↦ hs.ejectOpersIfDependenceConflict hl hm ho heject) hp₂
  have h₃ := h₂.tryPass hl hm hbr
    (fun hs heject ↦ hs.ejectOpersIfResourceConflict hl hm heject) hp₃
  split_ifs at hrun with hslot
  · cases hrun
  · obtain rfl := Option.some.inj (Except.ok.inj hrun)
    exact ⟨h₃, fun hnone ↦ hslot (hm.schedSlot h₃.manager hnone), hslot⟩

/-- So is the loop-back branch. -/
theorem PipeInv.placeLoopBackBr {readyTime : ℤ} {p : PipeState l × ℤ}
    (h : PipeInv l Inv r n (some o) s) (ho : o ∈ l.serialOpers)
    (hrun : placeLoopBackBr l s o readyTime r = .ok (some p)) :
    PipeInv l Inv r n (some o) p.1 ∧ p.1.place o ≠ none := by
  obtain ⟨s₁, hs₁, hrun⟩ := Run.bind_eq_ok.1 hrun
  obtain ⟨s₂, hs₂, hrun⟩ := Run.bind_eq_ok.1 hrun
  obtain ⟨⟨s₃, ok⟩, hs₃, hrun⟩ := Run.bind_eq_ok.1 hrun
  have h₁ : PipeInv l Inv r n (some o) s₁ := by
    rw [ejectForLoopBackBr] at hs₁
    split_ifs at hs₁
    · exact h.ejectOpersIfDependenceConflict hl hm ho hs₁
    · exact Except.ok.inj hs₁ ▸ h
  have h₂ := h₁.ejectEarlierBranchesAndLastSlot hl hm hs₂
  have hone := hl.one_le_slots
  have hle := hl.slots_le
  have h₃ := h₂.schedule hm (by omega) (by omega) (fun _ ↦ ⟨rfl, rfl, rfl⟩) hs₃
  dsimp only at hrun
  split_ifs at hrun with hok
  · obtain rfl := Option.some.inj (Except.ok.inj hrun)
    exact ⟨h₃.1, h₃.2 hok⟩
  · cases hrun

omit hl hm in
/-- The operation that was being scheduled has its place, and its flags may change. -/
theorem PipeInv.finish (h : PipeInv l Inv r n (some o) s)
    (hplace : l.startStop o = false → s.place o ≠ none) {info : ℕ → OpInfo}
    (hinfo : ∀ o' ≠ o, info o' = s.info o') : PipeInv l Inv r n none { s with info := info } where
  manager := h.manager
  conserved o' ho' hreal _ := by
    by_cases heq : o' = o
    · subst heq
      exact Or.inl ⟨hplace hreal, h.notMem o' rfl hreal⟩
    · exact h.conserved o' ho' hreal fun hc ↦ heq (Option.some.inj hc).symm
  flagged o' ho' hreal _ hflag := by
    by_cases heq : o' = o
    · subst heq
      exact hplace hreal
    · exact h.flagged o' ho' hreal (fun hc ↦ heq (Option.some.inj hc).symm) (hinfo o' heq ▸ hflag)
  queued := h.queued
  countP := h.countP
  notMem o' hc := by cases hc
  unflagged o' hc := by cases hc
  branch := h.branch

omit hl hm in
/-- The fields of a start or stop node do not matter. -/
theorem PipeInv.setSelf (h : PipeInv l Inv r n (some o) s) (hstart : l.startStop o = true)
    (x : OpInfo) : PipeInv l Inv r n (some o) { s with info := Function.update s.info o x } where
  manager := h.manager
  conserved := h.conserved
  flagged o' ho' hreal hcur hflag := by
    have hne : o' ≠ o := fun heq ↦ hcur (heq ▸ rfl)
    dsimp only at hflag
    rw [Function.update_of_ne hne] at hflag
    exact h.flagged o' ho' hreal hcur hflag
  queued := h.queued
  countP := h.countP
  notMem := h.notMem
  unflagged o' hc hreal := by
    obtain rfl := Option.some.inj hc
    rw [hstart] at hreal
    cases hreal
  branch := h.branch

/-- A real operation has its place after the attempt. Its slot shows that, or it is not flagged. -/
theorem PipeInv.attempt {readyTime cycle : ℤ} {p : PipeState l × ℤ}
    (h : PipeInv l Inv r n (some o) s) (ho : o ∈ l.serialOpers)
    (hrun : attempt l s o cycle readyTime r = .ok (some p)) :
    PipeInv l Inv r n (some o) p.1 ∧ (l.startStop o = false → p.1.place o ≠ none ∧
      (p.1.schedSlot o ≠ Sm.maxSlot ∨ (p.1.info o).scheduled = false)) := by
  rw [Softpipe.attempt] at hrun
  split_ifs at hrun with hstart hbr
  · obtain rfl := Option.some.inj (Except.ok.inj hrun)
    exact ⟨h.setSelf hstart _, fun hreal ↦ by simp [hreal] at hstart⟩
  · obtain ⟨hp, hplace⟩ := h.placeLoopBackBr hl hm ho hrun
    exact ⟨hp, fun hreal ↦ ⟨hplace, Or.inr (hp.unflagged o rfl hreal)⟩⟩
  · obtain ⟨hp, hplace, hslot⟩ := h.placeOper hl hm ho hbr hrun
    exact ⟨hp, fun _ ↦ ⟨hplace, Or.inl hslot⟩⟩

/-! ### The main loop -/

omit hl hm in
/-- The operation at the head of the queue becomes the one being scheduled. -/
theorem PipeInv.dequeue (h : PipeInv l Inv r n none s) {q : Qnode} {qs : List Qnode}
    (hq : s.queue = q :: qs) :
    PipeInv l Inv r (qs.map Qnode.oper |>.countP l.startStop) (some q.oper)
      { s with queue := qs } := by
  have hqueued : s.queued = q.oper :: qs.map Qnode.oper := by rw [PipeState.queued, hq]; rfl
  have hmem : q.oper ∈ l.serialOpers := h.queued _ (hqueued ▸ List.mem_cons_self)
  have hself : l.startStop q.oper = false →
      s.place q.oper = none ∧ q.oper ∉ qs.map Qnode.oper := by
    intro hreal
    rcases h.conserved _ hmem hreal (by simp) with hc | hc
    · exact absurd (hqueued ▸ List.mem_cons_self) hc.2
    · rw [hqueued, List.count_cons_self] at hc
      exact ⟨hc.1, List.count_eq_zero.1 (by omega)⟩
  refine ⟨h.manager, fun o ho hreal hcur ↦ ?_, fun o ho hreal _ ↦ h.flagged o ho hreal (by simp),
    fun o ho ↦ h.queued o (hqueued ▸ List.mem_cons_of_mem _ ho), rfl, fun o hc hreal ↦ ?_,
    fun o hc hreal ↦ ?_, h.branch⟩
  · have hne : o ≠ q.oper := fun heq ↦ hcur (heq ▸ rfl)
    have hc := h.conserved o ho hreal (by simp)
    rw [PipeState.Conserved, hqueued, List.mem_cons, or_iff_right hne,
      List.count_cons_of_ne hne.symm] at hc
    exact hc
  · obtain rfl := Option.some.inj hc
    exact (hself hreal).2
  · obtain rfl := Option.some.inj hc
    by_contra hflag
    exact h.flagged _ hmem hreal (by simp) (by simpa using hflag) (hself hreal).1

omit hl hm in
/-- How many iterations are left at most. -/
def LoopState.remaining (s : LoopState l) : ℕ :=
  if s.success then s.budget.toNat + s.pipe.queued.countP l.startStop + 1 else 0

/-- The body of the loop keeps the invariant, and uses up budget unless it was a start or stop node. -/
theorem PipeInv.loopBody {s s' : LoopState l} (h : PipeInv l Inv r n (some o) s.pipe)
    (ho : o ∈ l.serialOpers) (hrun : loopBody l r s o = .ok (.again s')) :
    PipeInv l Inv r n none s'.pipe ∧ (s'.success = true →
      s'.budget ≤ s.budget ∧ (l.startStop o = false → s'.budget < s.budget)) := by
  obtain ⟨ready, hready, hrun⟩ := Run.bind_eq_ok.1 hrun
  obtain ⟨result, hattempt, hrun⟩ := Run.bind_eq_ok.1 hrun
  rcases result with - | p
  · cases hrun
  obtain rfl : recordAttempt l s o p = s' := by injection Except.ok.inj hrun
  obtain ⟨hp, hreal⟩ := (h.computeReadyTime hready).attempt hl hm ho hattempt
  rw [recordAttempt]
  split_ifs with hslot
  · refine ⟨hp.finish (fun hr ↦ (hreal hr).1) fun o' ho' ↦ Function.update_of_ne ho' _ _,
      fun _ ↦ ⟨?_, fun _ ↦ ?_⟩⟩
    · show s.budget - 1 ≤ s.budget
      omega
    · show s.budget - 1 < s.budget
      omega
  · refine ⟨hp.finish (fun hr ↦ (hreal hr).1) fun o' _ ↦ rfl, fun hsuccess ↦ ⟨le_rfl, fun hr ↦ ?_⟩⟩
    have hflag := ((hreal hr).2.resolve_left hslot)
    simp [hflag] at hsuccess

/-- One iteration keeps the invariant, and fewer are left. -/
theorem PipeInv.iteration {s s' : LoopState l} (h : PipeInv l Inv r n none s.pipe)
    (hrun : iteration l r s = .ok (.again s')) :
    (∃ n', PipeInv l Inv r n' none s'.pipe) ∧ s'.remaining < s.remaining := by
  rw [Softpipe.iteration] at hrun
  split at hrun
  · cases hrun
  rename_i q qs hq
  dsimp only at hrun
  split_ifs at hrun with hcond
  · obtain ⟨hbudget, hsuccess⟩ := hcond
    have hqueued : s.pipe.queued = q.oper :: qs.map Qnode.oper := by rw [PipeState.queued, hq]; rfl
    have hmem : q.oper ∈ l.serialOpers := h.queued _ (hqueued ▸ List.mem_cons_self)
    obtain ⟨h', hless⟩ := (h.dequeue hq).loopBody (s := { s with pipe := { s.pipe with queue := qs } })
      hl hm hmem hrun
    refine ⟨⟨_, h'⟩, ?_⟩
    rw [LoopState.remaining, LoopState.remaining, if_pos hsuccess, h'.countP, hqueued,
      List.countP_cons]
    split_ifs with hsuccess' hstart
    · have := (hless hsuccess').1
      dsimp only at this
      omega
    · have := (hless hsuccess').2 (by simpa using hstart)
      dsimp only at this
      omega
    · omega
    · omega
  · cases hrun

/-- The iterations keep the invariant, and each uses up one of those that remain. -/
theorem PipeInv.mainLoop {m : ℕ} {s s' : LoopState l} (h : PipeInv l Inv r n none s.pipe)
    (hrun : mainLoop l r m s = .ok (.again s')) :
    (∃ n', PipeInv l Inv r n' none s'.pipe) ∧ s'.remaining + m ≤ s.remaining := by
  induction m generalizing s n with
  | zero =>
    obtain rfl : s = s' := by injection Except.ok.inj hrun
    exact ⟨⟨n, h⟩, le_rfl⟩
  | succ m ih =>
    rw [Softpipe.mainLoop] at hrun
    obtain ⟨x, hx, hrun⟩ := Run.bind_eq_ok.1 hrun
    rcases x with s₁ | ⟨s₁, smOp⟩ | -
    · obtain ⟨⟨n₁, h₁⟩, hless⟩ := h.iteration hl hm hx
      obtain ⟨hinv, hle⟩ := ih h₁ hrun
      exact ⟨hinv, by omega⟩
    · cases hrun
    · cases hrun

/-- The loop ends with nothing dequeued where the queue is empty. -/
theorem PipeInv.mainLoop_ended {m : ℕ} {s s' : LoopState l} (h : PipeInv l Inv r n none s.pipe)
    (hrun : Softpipe.mainLoop l r m s = .ok (.ended s' none)) :
    (∃ n', PipeInv l Inv r n' none s'.pipe) ∧ s'.pipe.queue = [] := by
  induction m generalizing s n with
  | zero => cases hrun
  | succ m ih =>
    rw [Softpipe.mainLoop] at hrun
    obtain ⟨x, hx, hrun⟩ := Run.bind_eq_ok.1 hrun
    rcases x with s₁ | ⟨s₁, smOp⟩ | -
    · obtain ⟨⟨n₁, h₁⟩, -⟩ := h.iteration hl hm hx
      exact ih h₁ hrun
    · obtain ⟨rfl, rfl⟩ : s₁ = s' ∧ smOp = none := by injection Except.ok.inj hrun; exact ⟨‹_›, ‹_›⟩
      rw [Softpipe.iteration] at hx
      split at hx
      · rename_i hq
        obtain rfl : s = s₁ := by injection Except.ok.inj hx
        exact ⟨⟨n, h⟩, hq⟩
      · dsimp only at hx
        split_ifs at hx
        · obtain ⟨ready, -, hx⟩ := Run.bind_eq_ok.1 hx
          obtain ⟨result, -, hx⟩ := Run.bind_eq_ok.1 hx
          rcases result with - | p <;> cases hx
        · cases hx
    · cases hrun

omit hm in
/-- Every operation is in the queue once at the start. -/
theorem pipeInv_startLoop {sm : l.manager.State} (hinv : Inv sm)
    (hplace : ∀ o, l.manager.place sm o = none) (info : ℕ → OpInfo) (budget : ℤ) :
    ∃ n, PipeInv l Inv r n none (startLoop l sm info r budget).pipe := by
  have hperm : ∀ (os : List ℕ) (qs : List Qnode),
      ((os.foldl (fun qs o ↦ enqueueDecreasing qs o (l.priority o)) qs).map Qnode.oper).Perm
        (os ++ qs.map Qnode.oper) := by
    intro os
    induction os with
    | nil => exact fun qs ↦ .refl _
    | cons o os ih =>
      intro qs
      refine (ih _).trans (((queued_eject ⟨sm, info, qs⟩ o _).append_left os).trans ?_)
      exact List.perm_middle
  have hqueued : (startLoop l sm info r budget).pipe.queued.Perm l.serialOpers := by
    refine (hperm _ _).trans ?_
    simp [List.reverse_perm]
  refine ⟨_, hinv, fun o ho _ _ ↦ Or.inr ⟨hplace o, ?_⟩, fun o ho _ _ hflag ↦ ?_,
    fun o ho ↦ hqueued.mem_iff.1 ho, rfl, fun o hc ↦ (nomatch hc), fun o hc ↦ (nomatch hc),
    fun cycle slot hp ↦ ?_⟩
  · rw [hqueued.count_eq]
    exact List.count_eq_one_of_mem hl.nodup ho
  · simp [startLoop, ho, initOpInfo] at hflag
  · rw [PipeState.place, startLoop, hplace] at hp
    cases hp

end Invariant

/-! ### What the loop leaves -/

/-- All operations of a loop are scheduled, in slots of their own and with their dependences met,
and the loop-back branch ends the last cycle. -/
structure PipeLoop.ModuloScheduled (l : PipeLoop) (sm : l.manager.State) : Prop where
  scheduled : ∀ o ∈ l.serialOpers, l.startStop o = false →
    (l.manager.oper sm o).scheduled = true
  slots : ∀ a ∈ l.serialOpers, ∀ b ∈ l.serialOpers, l.startStop a = false →
    l.startStop b = false → a ≠ b →
    (l.manager.oper sm a).schedCycle ≡ (l.manager.oper sm b).schedCycle [ZMOD l.cb.ii] →
    (l.manager.oper sm a).schedSlot ≠ (l.manager.oper sm b).schedSlot
  loopBackBr : (l.manager.oper sm l.loopBackBr).schedCycle = 1000 * l.cb.ii - 1 ∧
    (((l.manager.oper sm l.loopBackBr).schedSlot : ℕ) : ℤ) = l.totalIssueSlots - 1
  deps : ∀ k, l.cb.IsDep k → (l.cb.dep k).hardDep = true → l.manager.ignore sm k = false →
    (l.cb.dep k).fromOp ∈ l.serialOpers → l.startStop (l.cb.dep k).fromOp = false →
    (l.cb.dep k).toOp ∈ l.serialOpers → l.startStop (l.cb.dep k).toOp = false →
    (l.cb.dep k).minDelay - (l.cb.dep k).omega * l.cb.ii ≤
      (l.manager.oper sm (l.cb.dep k).toOp).schedCycle -
        (l.manager.oper sm (l.cb.dep k).fromOp).schedCycle

section Spec

variable {l : PipeLoop} {Inv : l.manager.State → Prop}

theorem Manager.place_ne_none {m : Manager} {s : m.State} {o : ℕ} (h : m.place s o ≠ none) :
    (m.oper s o).scheduled = true ∧
      m.place s o = some ((m.oper s o).schedCycle, (m.oper s o).schedSlot) := by
  rw [Manager.place] at h ⊢
  split_ifs at h ⊢ with hs
  · exact ⟨hs, rfl⟩
  · exact absurd rfl h

/-- With all operations out of the queue the schedule is complete. -/
theorem PipeInv.moduloScheduled (hl : l.Sound) (hm : l.manager.Lawful l.cb Inv) {n : ℕ}
    {s : PipeState l} (h : PipeInv l Inv (1000 * l.cb.ii - 1) n none s) (hq : s.queue = []) :
    l.ModuloScheduled s.sm := by
  have hplace : ∀ o ∈ l.serialOpers, l.startStop o = false → s.place o ≠ none := by
    intro o ho hreal
    rcases h.conserved o ho hreal (by simp) with hc | hc
    · exact hc.1
    · simp [PipeState.queued, hq] at hc
  refine ⟨fun o ho hreal ↦ (Manager.place_ne_none (hplace o ho hreal)).1,
    fun a ha b hb hreala hrealb hne hmod hslot ↦ ?_, ?_,
    fun k hk hhard hignore hfrom hrealf hto hrealt ↦ ?_⟩
  · have hplacea := (Manager.place_ne_none (hplace a ha hreala)).2
    have hplaceb := (Manager.place_ne_none (hplace b hb hrealb)).2
    exact hm.slots h.manager hne (hslot ▸ hplacea) hplaceb hmod
  · exact h.branch _ _
      (Manager.place_ne_none (hplace _ hl.loopBackBr_mem hl.loopBackBr_real)).2
  · exact hm.deps h.manager hk hhard hignore
      (Manager.place_ne_none (hplace _ hfrom hrealf)).2
      (Manager.place_ne_none (hplace _ hto hrealt)).2

/-- The main loop ends. Until then every operation is scheduled or in the queue once, and where the
queue runs empty the loop is modulo scheduled. -/
theorem smSchedule_spec (l : PipeLoop) (hl : l.Sound) (Inv : l.manager.State → Prop)
    (hm : l.manager.Lawful l.cb Inv) (sm : l.manager.State) (hinv : Inv sm)
    (hplace : ∀ o, l.manager.place sm o = none) (info : ℕ → OpInfo) (budget : ℤ) :
    (∃ N, ∀ n ≥ N, ∀ s, smSchedule l sm info budget n ≠ .ok (.again s)) ∧
    (∀ n s, smSchedule l sm info budget n = .ok (.again s) →
      ∀ o ∈ l.serialOpers, l.startStop o = false → s.pipe.Conserved o) ∧
    ∀ n s, smSchedule l sm info budget n = .ok (.ended s none) →
      l.ModuloScheduled s.pipe.sm := by
  have hrun : ∀ {n x}, smSchedule l sm info budget n = .ok x →
      mainLoop l (1000 * l.cb.ii - 1) n (startLoop l sm info (1000 * l.cb.ii - 1) budget) =
        .ok x := by
    intro n x h
    obtain ⟨r, hr, h⟩ := Run.bind_eq_ok.1 h
    obtain ⟨late, hlate, hr⟩ := Run.bind_eq_ok.1 hr
    obtain rfl := (int32_eq_ok.1 hlate).2
    obtain rfl := (int32_eq_ok.1 hr).2
    exact h
  obtain ⟨n₀, hstart⟩ := pipeInv_startLoop (r := 1000 * l.cb.ii - 1) hl hinv hplace info budget
  refine ⟨⟨(startLoop l sm info (1000 * l.cb.ii - 1) budget).remaining + 1, fun n hn s h ↦ ?_⟩,
    fun n s h o ho hreal ↦ ?_, fun n s h ↦ ?_⟩
  · have := (hstart.mainLoop hl hm (hrun h)).2
    omega
  · obtain ⟨⟨n', hinv'⟩, -⟩ := hstart.mainLoop hl hm (hrun h)
    exact hinv'.conserved o ho hreal (by simp)
  · obtain ⟨⟨n', hinv'⟩, hq⟩ := hstart.mainLoop_ended hl hm (hrun h)
    exact hinv'.moduloScheduled hl hm hq

end Spec

end OpenImpact.Softpipe
