import OpenImpact.Sched.KernelQueue
import OpenImpact.Softpipe.BranchPath
import OpenImpact.Softpipe.SchedList

/-!
# The end of scheduling

What `Lpipe_sm_schedule` does once its main loop has scheduled all operations: it refuses schedules with
too many stages or too few registers, finds the kernel, and runs the passes that compact the branch path
and shorten lifetimes. Whatever it accepts is a modulo schedule with the kernel that the main loop found
(`finishSmSchedule_spec`).

The theorem puts the results on the main loop and on the two passes together, for any parameters. It
needs a manager that does not change which dependences are ignored. `Lpipe_sort_MRT_rows`, which
afterwards exchanges slots within a row if its flag is on, is left out, and so the slots are those
of the run with the flag off. The lifetime analysis that counts registers is a parameter.
-/

namespace OpenImpact.Softpipe

/-- The loop, with a schedule manager that keeps the list of scheduled operations. -/
def PipeLoop.listed (l : PipeLoop) : PipeLoop := { l with manager := listedManager l.manager }

/-- The parameters `Lpipe_max_stages`, `Lpipe_schema == MULTI_EPI`, `Lpipe_compact_branch_path_opers`,
`Lpipe_counted_loop` and `M_arch == M_TAHOE`, whether the loop-back branch is a conditional branch with
a predicate, and the flag `SM_NORMALIZE_ISSUE`. -/
structure PipeParms where
  maxStages : ℤ
  multiEpi : Bool
  compactBranchPathOpers : Bool
  countedLoop : Bool
  tahoe : Bool
  predicatedBranch : Bool
  normalizeIssue : Bool

section Functions

variable (l : PipeLoop)

/-- One operation in `Lpipe_copy_sched_info`. -/
def copyOperInfo (k : Sm.Kernel) (s : PipeState l) (o : ℕ) : Run (PipeState l) :=
  if l.startStop o then .ok s
  else
    match k.attr o with
    | none =>
      .error (.punt "Lpipe_copy_sched_info: scheduled oper found with no stage attribute.")
    | some a => do
      let distance ← int32 (a.stage * l.cb.ii)
      let time ← int32 (a.isl + distance)
      .ok { s with info := Function.update s.info o { s.info o with
        issueTime := time
        intraIterIssueTime := time
        issueSlot := (s.schedSlot o : ℕ) } }

/-- `Lpipe_copy_sched_info`. -/
def copySchedInfo (k : Sm.Kernel) (s : PipeState l) : Run (PipeState l) :=
  l.serialOpers.foldlM (copyOperInfo l k) s

/-- `SM_construct_temp_kernel_queue`. -/
def kernelQueue (p : PipeParms) (k : Sm.Kernel) (s : PipeState l.listed) : Run Sm.Kernel :=
  Sm.constructTempKernelQueue l.cb (l.manager.oper s.sm.1) p.normalizeIssue s.sm.2 k

/-- The first pass, if it is asked for. -/
def compactPass (p : PipeParms) (branchPathNode : ℕ → Bool) (s : PipeState l) :
    Run (PipeState l) :=
  if p.compactBranchPathOpers && p.countedLoop then
    compactBranchPathOpers l branchPathNode s l.loopBackBr
  else .ok s

/-- The two passes of `Lpipe_sm_schedule`. -/
def runPasses (p : PipeParms) (flowDep branchPathNode : ℕ → Bool) (s : PipeState l) :
    Run (PipeState l) := do
  let s ← compactPass l p branchPathNode s
  if p.tahoe then .ok s else optimizeLifetimes l flowDep true s

/-- `Lpipe_sm_schedule` after its main loop, without `Lpipe_sort_mrt_rows`. The result is `none` where
it returns 0. `Lpipe_analyze_lr` is a parameter. -/
def finishSmSchedule (p : PipeParms) (analyzeLr : PipeState l.listed → Sm.Kernel → Run ℤ)
    (flowDep branchPathNode : ℕ → Bool) (k : Sm.Kernel) (s : LoopState l.listed) :
    Run (Option (PipeState l.listed × Sm.Kernel)) :=
  if !s.success then .ok none
  else do
    let first ← deref s.pipe.sm.2.head?
    let last ← deref s.pipe.sm.2.getLast?
    let schedLength ← int32 (s.pipe.schedCycle last - s.pipe.schedCycle first)
    if schedLength.tdiv l.cb.ii > p.maxStages then .ok none
    else do
      let k ← kernelQueue l p k s.pipe
      let pipe ← copySchedInfo l.listed k s.pipe
      let unroll ← analyzeLr pipe k
      if unroll = -1 ∨ unroll > 1 ∧ p.multiEpi = true ∧ p.predicatedBranch = true then .ok none
      else do
        let pipe ← runPasses l.listed p flowDep branchPathNode pipe
        let k ← kernelQueue l p k pipe
        let (offset, stages) ←
          Sm.setSchedCycleOffset l.cb (l.manager.oper pipe.sm.1) pipe.sm.2 k.stages
        .ok (some (pipe, { k with offset := offset, stages := stages }))

end Functions

section Spec

variable {l : PipeLoop} {Inv : l.manager.State → Prop} {s s' : PipeState l} {k : Sm.Kernel}

theorem PipeLoop.Sound.listed (hl : l.Sound) : l.listed.Sound :=
  ⟨hl.nodup, hl.loopBackBr_mem, hl.loopBackBr_real, hl.loopBackBr, hl.fromOp, hl.one_le_slots,
    hl.slots_le⟩

/-- Copying what scheduling found does not change the schedule. -/
theorem copySchedInfo_spec (hrun : copySchedInfo l k s = .ok s') :
    s'.sm = s.sm ∧ ∀ o ∈ l.serialOpers, l.startStop o = false →
      (s'.info o).issueSlot = (s'.schedSlot o : ℕ) := by
  have hstep (o : ℕ) (_ : o ∈ l.serialOpers) {a b : PipeState l}
      (hrun : copyOperInfo l k a o = .ok b) :
      (b.sm = a.sm ∧ ∀ o', (a.info o').issueSlot = (a.schedSlot o' : ℕ) →
        (b.info o').issueSlot = (b.schedSlot o' : ℕ)) ∧
        (l.startStop o = false → (b.info o).issueSlot = (b.schedSlot o : ℕ)) := by
    rw [copyOperInfo] at hrun
    split_ifs at hrun with hstart
    · obtain rfl := Except.ok.inj hrun
      exact ⟨⟨rfl, fun _ h ↦ h⟩, fun hreal ↦ absurd hstart (by simp [hreal])⟩
    · cases hattr : k.attr o with
      | none => rw [hattr] at hrun; cases hrun
      | some attr =>
        rw [hattr] at hrun
        obtain ⟨distance, -, hrun⟩ := Run.bind_eq_ok.1 hrun
        obtain ⟨time, -, hrun⟩ := Run.bind_eq_ok.1 hrun
        obtain rfl := Except.ok.inj hrun
        refine ⟨⟨rfl, fun o' ho' ↦ ?_⟩, fun _ ↦ ?_⟩
        · rcases eq_or_ne o' o with rfl | hne
          · simp only [Function.update_self]
            rfl
          · simp only [Function.update_of_ne hne]
            exact ho'
        · simp only [Function.update_self]
          rfl
  obtain ⟨⟨hsm, -⟩, hall⟩ := Run.foldlM_spec
    (R := fun a b : PipeState l ↦ b.sm = a.sm ∧ ∀ o', (a.info o').issueSlot = (a.schedSlot o' : ℕ) →
      (b.info o').issueSlot = (b.schedSlot o' : ℕ))
    (P := fun o b ↦ l.startStop o = false → (b.info o).issueSlot = (b.schedSlot o : ℕ))
    (fun a ↦ ⟨rfl, fun _ h ↦ h⟩)
    (fun hab hbc ↦ ⟨hbc.1.trans hab.1, fun o' ho' ↦ hbc.2 o' (hab.2 o' ho')⟩)
    (fun hab h hreal ↦ hab.2 _ (h hreal)) hstep hrun
  exact ⟨hsm, hall⟩

/-- The two passes only move operations to earlier stages. -/
theorem moved_runPasses (hl : l.Sound) (hcb : l.cb.Sound) (hm : l.manager.Lawful l.cb Inv)
    (hignore : ∀ sm sm' k, l.manager.ignore sm k = l.manager.ignore sm' k) {p : PipeParms}
    {flowDep branchPathNode : ℕ → Bool} (hbranch : branchPathNode l.loopBackBr = true)
    (hinv : Inv s.sm) (hplaced : s.Placed)
    (hissue : ∀ o ∈ l.serialOpers, l.startStop o = false →
      (s.info o).issueSlot = (s.schedSlot o : ℕ))
    (hrun : runPasses l p flowDep branchPathNode s = .ok s') :
    ∃ s₁, Moved Inv (-l.cb.ii) (fun _ ↦ false) s s₁ ∧
      Moved Inv (-l.cb.ii) (fun _ ↦ false) s₁ s' := by
  have hfree {fixed : ℕ → Bool} {a b : PipeState l} (h : Moved Inv (-l.cb.ii) fixed a b) :
      Moved Inv (-l.cb.ii) (fun _ ↦ false) a b :=
    ⟨h.manager, h.stages, fun _ h ↦ absurd h Bool.false_ne_true, h.issueSlot⟩
  obtain ⟨s₁, hcompact, hrun⟩ := Run.bind_eq_ok.1 hrun
  have hfirst : Moved Inv (-l.cb.ii) (fun _ ↦ false) s s₁ := by
    rw [compactPass] at hcompact
    split_ifs at hcompact
    · exact hfree
        (compacted_compactBranchPathOpers hl hcb hm hbranch hinv hplaced hissue hcompact).1
    · exact Except.ok.inj hcompact ▸ .refl hinv hplaced
  refine ⟨s₁, hfirst, ?_⟩
  split_ifs at hrun
  · exact Except.ok.inj hrun ▸ .refl hfirst.manager hfirst.placed
  · exact hfree (shortened_optimizeLifetimes hcb hm hignore true hfirst.manager hfirst.placed hrun).moved

/-- A complete schedule with its list is one in order. -/
theorem Listed.scheduleOrder (hl : l.Sound) (hm : l.manager.Lawful l.cb Inv)
    {sm : l.manager.State × List ℕ} (hinv : Inv sm.1) (hlist : Listed l.manager sm)
    (hsched : l.listed.Scheduled sm) : Sm.ScheduleOrder l.cb (l.manager.oper sm.1) sm.2 ∧
      ∀ o ∈ l.serialOpers, l.startStop o = false → o ∈ sm.2 := by
  have hall (o : ℕ) (hmem : o ∈ l.serialOpers) (hreal : l.startStop o = false) : o ∈ sm.2 := by
    have hon : (l.manager.oper sm.1 o).scheduled = true := hsched.scheduled o hmem hreal
    refine (hlist.mem o).2 ?_
    rw [Manager.place, if_pos hon]
    simp
  refine ⟨⟨List.ne_nil_of_mem (hall _ hl.loopBackBr_mem hl.loopBackBr_real), hlist.nodup,
    hlist.sorted.imp fun {a b} h ↦ ?_, fun a ha b hb hne hmod hslot ↦ ?_⟩, hall⟩
  · have := of_decide_eq_true h
    omega
  · have hplace {o : ℕ} (ho : o ∈ sm.2) := (Manager.place_ne_none ((hlist.mem o).1 ho)).2
    have hplacea := hplace ha
    rw [hslot] at hplacea
    exact hm.slots hinv hne hplacea (hplace hb) hmod

/-- **Whatever `Lpipe_sm_schedule` accepts** is a modulo schedule: with all operations in the list of
scheduled ones, in the order of their cycles, and every operation in the slot and in the row of the kernel
where the main loop put it, if not earlier. -/
theorem finishSmSchedule_spec (l : PipeLoop) (hl : l.Sound) (hcb : l.cb.Sound)
    (Inv : l.manager.State → Prop) (hm : l.manager.Lawful l.cb Inv)
    (hignore : ∀ sm sm' k, l.manager.ignore sm k = l.manager.ignore sm' k) (p : PipeParms)
    (analyzeLr : PipeState l.listed → Sm.Kernel → Run ℤ) (flowDep branchPathNode : ℕ → Bool)
    (hbranch : branchPathNode l.loopBackBr = true) (sm : l.manager.State) (hinv : Inv sm)
    (hplace : ∀ o, l.manager.place sm o = none) (info : ℕ → OpInfo) (budget : ℤ) (n : ℕ)
    (s : LoopState l.listed) (k : Sm.Kernel) (r : PipeState l.listed × Sm.Kernel)
    (hmain : smSchedule l.listed (sm, []) info budget n = .ok (.ended s none))
    (hrun : finishSmSchedule l p analyzeLr flowDep branchPathNode k s = .ok (some r)) :
    l.listed.Scheduled r.1.sm ∧ Sm.ScheduleOrder l.cb (l.manager.oper r.1.sm.1) r.1.sm.2 ∧
      ∀ o ∈ l.serialOpers, l.startStop o = false → o ∈ r.1.sm.2 ∧
        r.1.schedSlot o = s.pipe.schedSlot o ∧
        r.1.schedCycle o ≡ s.pipe.schedCycle o [ZMOD l.cb.ii] ∧
        r.1.schedCycle o ≤ s.pipe.schedCycle o := by
  have hlawful : l.listed.manager.Lawful l.listed.cb fun s ↦ Inv s.1 ∧ Listed l.manager s :=
    lawful_listedManager hm
  have hlisted : Listed l.manager (sm, []) := ⟨fun o ↦ by simp [hplace], .nil, .nil⟩
  obtain ⟨hinv', hplaced⟩ := placed_of_smSchedule hl.listed hlawful ⟨hinv, hlisted⟩ hplace hmain
  rw [finishSmSchedule] at hrun
  split_ifs at hrun
  · cases hrun
  obtain ⟨first, -, hrun⟩ := Run.bind_eq_ok.1 hrun
  obtain ⟨last, -, hrun⟩ := Run.bind_eq_ok.1 hrun
  obtain ⟨length, -, hrun⟩ := Run.bind_eq_ok.1 hrun
  split_ifs at hrun
  · cases hrun
  obtain ⟨k₁, -, hrun⟩ := Run.bind_eq_ok.1 hrun
  obtain ⟨pipe, hcopy, hrun⟩ := Run.bind_eq_ok.1 hrun
  obtain ⟨unroll, -, hrun⟩ := Run.bind_eq_ok.1 hrun
  split_ifs at hrun
  · cases hrun
  obtain ⟨pipe', hpasses, hrun⟩ := Run.bind_eq_ok.1 hrun
  obtain ⟨k₂, -, hrun⟩ := Run.bind_eq_ok.1 hrun
  obtain ⟨offset, -, hrun⟩ := Run.bind_eq_ok.1 hrun
  obtain rfl := Option.some.inj (Except.ok.inj hrun)
  obtain ⟨hsm, hissue⟩ := copySchedInfo_spec hcopy
  -- copying changes nothing that the passes find in the schedule
  have hcycle (o : ℕ) : pipe.schedCycle o = s.pipe.schedCycle o := by
    rw [PipeState.schedCycle, hsm]
    rfl
  have hslot (o : ℕ) : pipe.schedSlot o = s.pipe.schedSlot o := by
    rw [PipeState.schedSlot, hsm]
    rfl
  have hplaced' : pipe.Placed := fun o hmem hreal ↦ by
    rw [hcycle, hslot, PipeState.place, hsm]
    exact hplaced o hmem hreal
  obtain ⟨s₁, hfirst, hsecond⟩ := moved_runPasses hl.listed hcb hlawful (fun _ _ k ↦ hignore _ _ k)
    hbranch (hsm ▸ hinv') hplaced' hissue hpasses
  have hsched : l.listed.Scheduled pipe'.sm :=
    hsecond.placed.scheduled hlawful hcb hsecond.manager
  obtain ⟨horder, hall⟩ := hsecond.manager.2.scheduleOrder hl hm hsecond.manager.1 hsched
  refine ⟨hsched, horder, fun o hmem hreal ↦ ⟨hall o hmem hreal, ?_, ?_, ?_⟩⟩
  · exact ((hsecond.kernel (Int.dvd_neg.2 dvd_rfl) hmem hreal).1.trans
      (hfirst.kernel (Int.dvd_neg.2 dvd_rfl) hmem hreal).1).trans (hslot o)
  · exact ((hsecond.kernel (Int.dvd_neg.2 dvd_rfl) hmem hreal).2.trans
      (hfirst.kernel (Int.dvd_neg.2 dvd_rfl) hmem hreal).2).trans (by rw [hcycle])
  · have hii : -l.listed.cb.ii ≤ 0 := by have := hcb.one_le_ii; show -l.cb.ii ≤ 0; omega
    rw [← hcycle]
    exact (hsecond.schedCycle_le hii hmem hreal).trans (hfirst.schedCycle_le hii hmem hreal)

/-- Parameters that let both passes run. -/
def counterParms : PipeParms where
  maxStages := 8
  multiEpi := false
  compactBranchPathOpers := true
  countedLoop := true
  tahoe := false
  predicatedBranch := false
  normalizeIssue := true

/-- The whole of `Lpipe_sm_schedule` for `counterLoop`. -/
def counterFinished : Run (LoopState counterLoop.listed × PipeState counterLoop.listed × Sm.Kernel) := do
  match ← smSchedule counterLoop.listed (counterStart, []) (fun _ ↦ initOpInfo 0) 9 7 with
  | .ended s none => do
    match ← finishSmSchedule counterLoop counterParms (fun _ _ ↦ .ok 1) (fun _ ↦ true)
      (fun o ↦ o ∈ [0, 1, 5]) ⟨0, 0, [], fun _ ↦ none⟩ s with
    | some r => .ok (s, r)
    | none => .error .outOfFuel
  | _ => .error .outOfFuel

theorem finishSmSchedule_counter :
    ∃ s r, counterFinished = .ok (s, r) ∧ counterLoop.listed.Scheduled r.1.sm ∧
      r.1.sm.2 = [5, 0, 4, 1] ∧ r.2.queue = [0, 5, 4, 1] := by
  have hrun : (do
      let (_, r) ← counterFinished
      .ok (r.1.sm.2, r.2.queue) : Run (List ℕ × List ℕ)) = .ok ([5, 0, 4, 1], [0, 5, 4, 1]) := by
    decide +kernel
  obtain ⟨⟨s, r⟩, hfinished, hrun⟩ := Run.bind_eq_ok.1 hrun
  refine ⟨s, r, hfinished, ?_, Prod.mk.inj (Except.ok.inj hrun)⟩
  obtain ⟨x, hmain, hfinished⟩ := Run.bind_eq_ok.1 hfinished
  split at hfinished
  · obtain ⟨y, hfinish, hfinished⟩ := Run.bind_eq_ok.1 hfinished
    split at hfinished
    · obtain ⟨rfl, rfl⟩ := Prod.mk.inj (Except.ok.inj hfinished)
      exact (finishSmSchedule_spec counterLoop sound_counterLoop sound_counterCb _
        (lawful_smManager sound_counterCb selfDepsCarried_counterCb) (fun _ _ _ ↦ rfl) counterParms
        (fun _ _ ↦ .ok 1) (fun _ ↦ true) (fun o ↦ o ∈ [0, 1, 5]) rfl counterStart smInv_counterStart
        (fun _ ↦ rfl) (fun _ ↦ initOpInfo 0) 9 7 _ ⟨0, 0, [], fun _ ↦ none⟩ _ hmain hfinish).1
    · cases hfinished
  · cases hfinished

end Spec

end OpenImpact.Softpipe
