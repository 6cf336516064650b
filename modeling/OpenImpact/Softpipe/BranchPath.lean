import OpenImpact.Foundation.BackSlice
import OpenImpact.Softpipe.Lifetimes

/-!
# The operations that the loop-back branch depends on

`Lpipe_mark_branch_path_opers` marks the chain of operations from which register flow leads to the
loop-back branch in the same iteration (`markBranchPathOpers_iff`).
`Lpipe_do_compact_branch_path_opers` moves the chain to earlier stages, until no other operation is in an
earlier stage than the loop-back branch (`compactBranchPathOpers_spec`).

Both are about the schedules that the main loop leaves, over any schedule manager that keeps its
laws (`Manager.Lawful`). The second one is about every run that returns: whether it does is not
claimed, since the manager may refuse to put an operation back. Its invariant is `Moved`, the kernel
that stays and the cycles that only go one way, which the lifetime pass shares.
-/

namespace OpenImpact.Softpipe

section Functions

variable (l : PipeLoop)

/-- One dependence into an operation of the chain. -/
def markSource (flowDep : ℕ → Bool) (sm : l.manager.State) (branchPathNode : ℕ → Bool) (k : ℕ) :
    ℕ → Bool :=
  let d := l.cb.dep k
  if l.manager.ignore sm k || decide (d.omega ≠ 0) || !(d.regDep && flowDep k) then branchPathNode
  else if l.startStop d.fromOp then branchPathNode
  else Function.update branchPathNode d.fromOp true

/-- The body of the loop in `Lpipe_mark_branch_path_opers`. -/
def markOper (flowDep : ℕ → Bool) (sm : l.manager.State) (branchPathNode : ℕ → Bool) (o : ℕ) :
    ℕ → Bool :=
  if !branchPathNode o then branchPathNode
  else (l.depsIn o).foldl (markSource l flowDep sm) branchPathNode

/-- `Lpipe_mark_branch_path_opers`. -/
def markBranchPathOpers (flowDep : ℕ → Bool) (sm : l.manager.State) (branchPathNode : ℕ → Bool)
    (loopBackBr : ℕ) : ℕ → Bool :=
  l.serialOpers.reverse.foldl (markOper l flowDep sm)
    (Function.update branchPathNode loopBackBr true)

/-- The body of the first loop in `Lpipe_do_compact_branch_path_opers`. The second component is
`earliest_non_spec_issue_time`. -/
def compactOper (branchPathNode : ℕ → Bool) (p : PipeState l × ℤ) (o : ℕ) :
    Run (PipeState l × ℤ) :=
  let (s, earliestNonSpec) := p
  if l.startStop o then .ok p
  else if !branchPathNode o then
    .ok (s, if s.schedCycle o < earliestNonSpec then s.schedCycle o else earliestNonSpec)
  else do
    let slack ← minslack l
      (fun k ↦ decide ((l.cb.dep k).fromOp = o) || l.startStop (l.cb.dep k).fromOp) (tempslack l s)
      s (l.depsIn o)
    let earliestIssueTime ← int32 (s.schedCycle o - slack)
    let issueTime ← moveEarlier l.cb.ii (s.schedCycle o) earliestIssueTime
    let s ← reschedule l "Lpipe_do_compact_branch_path_opers: (1) Can't reschedule sm_op!" s o
      issueTime (s.schedSlot o : ℕ)
    .ok (s, earliestNonSpec)

/-- The body of the second loop. -/
def pushOper (branchPathNode : ℕ → Bool) (stageDiff : ℤ) (s : PipeState l) (o : ℕ) :
    Run (PipeState l) :=
  if branchPathNode o && !l.startStop o then do
    let distance ← int32 (stageDiff * l.cb.ii)
    let issueTime ← int32 (s.schedCycle o + distance)
    reschedule l "Lpipe_do_compact_branch_path_opers: (2) Can't reschedule sm_op!" s o issueTime
      (s.info o).issueSlot
  else .ok s

/-- `Lpipe_do_compact_branch_path_opers`. -/
def compactBranchPathOpers (branchPathNode : ℕ → Bool) (s : PipeState l) (loopBackBr : ℕ) :
    Run (PipeState l) := do
  let (s, earliestNonSpec) ← l.serialOpers.foldlM (compactOper l branchPathNode) (s, Sm.maxCycle)
  let stageDiff ← int32
    (earliestNonSpec.tdiv l.cb.ii - (s.schedCycle loopBackBr).tdiv l.cb.ii)
  if stageDiff < 0 then l.serialOpers.foldlM (pushOper l branchPathNode stageDiff) s
  else .ok s

end Functions

section Marks

variable {l : PipeLoop} {flowDep : ℕ → Bool} {sm : l.manager.State} {k : ℕ}

/-- Dependence `k` carries a register within an iteration, from an operation that is no start or stop
node. -/
def PipeLoop.flowsIn (l : PipeLoop) (flowDep : ℕ → Bool) (sm : l.manager.State) (k : ℕ) : Bool :=
  !l.manager.ignore sm k && decide ((l.cb.dep k).omega = 0) && (l.cb.dep k).regDep && flowDep k &&
    !l.startStop (l.cb.dep k).fromOp

/-- The operations that write what an operation reads in the same iteration. -/
def PipeLoop.flowSources (l : PipeLoop) (flowDep : ℕ → Bool) (sm : l.manager.State) (o : ℕ) :
    List ℕ :=
  ((l.depsIn o).filter (l.flowsIn flowDep sm)).map fun k ↦ (l.cb.dep k).fromOp

theorem markSource_eq (marks : ℕ → Bool) : markSource l flowDep sm marks k =
    if l.flowsIn flowDep sm k then Function.update marks (l.cb.dep k).fromOp true else marks := by
  rw [markSource, PipeLoop.flowsIn]
  cases l.manager.ignore sm k <;> cases (l.cb.dep k).regDep <;> cases flowDep k <;>
    cases l.startStop (l.cb.dep k).fromOp <;> rcases eq_or_ne (l.cb.dep k).omega 0 with h | h <;>
    simp [h]

theorem markOper_eq (marks : ℕ → Bool) (o : ℕ) :
    markOper l flowDep sm marks o = Foundation.markPreds (l.flowSources flowDep sm) marks o := by
  have hsource : markSource l flowDep sm = fun marks k ↦
      if l.flowsIn flowDep sm k then Function.update marks (l.cb.dep k).fromOp true else marks :=
    funext fun marks ↦ funext fun _ ↦ markSource_eq marks
  rw [markOper, Foundation.markPreds, hsource, PipeLoop.flowSources, List.foldl_map,
    List.foldl_filter]
  cases marks o <;> rfl

/-- **The marks**, in a loop whose register flow within an iteration goes forward in serial order: an
operation is marked if register flow within the iteration leads from it to the loop-back branch. -/
theorem markBranchPathOpers_iff (l : PipeLoop) (hl : l.Sound) (flowDep : ℕ → Bool)
    (sm : l.manager.State)
    (hserial : l.serialOpers.Pairwise fun a b ↦ b ∉ l.flowSources flowDep sm a)
    (hself : ∀ o ∈ l.serialOpers, o ∉ l.flowSources flowDep sm o) (o : ℕ) :
    markBranchPathOpers l flowDep sm (fun _ ↦ false) l.loopBackBr o = true ↔
      Relation.ReflTransGen (fun a b ↦ a ∈ l.flowSources flowDep sm b) o l.loopBackBr := by
  have hmark : markOper l flowDep sm = fun marks o ↦
      Foundation.markPreds (l.flowSources flowDep sm) marks o :=
    funext fun marks ↦ funext fun o ↦ markOper_eq marks o
  rw [markBranchPathOpers, List.foldl_reverse, hmark]
  refine (Foundation.sliceBack_iff hserial hself).trans ⟨?_, fun hpath ↦ ?_⟩
  · rintro ⟨y, hy, hpath⟩
    obtain rfl : y = l.loopBackBr := by
      by_contra hne
      rw [Function.update_of_ne hne] at hy
      cases hy
    exact hpath.lift id fun _ _ h ↦ h.2
  · refine ⟨l.loopBackBr, Function.update_self .., ?_⟩
    -- what a path to the loop-back branch leads through is in the loop
    have hmem {a b : ℕ} (hb : b ∈ l.serialOpers) (h : a ∈ l.flowSources flowDep sm b) :
        a ∈ l.serialOpers := by
      obtain ⟨k, hk, rfl⟩ := List.mem_map.1 h
      obtain ⟨act, hact, hk⟩ := List.mem_flatMap.1 (List.mem_of_mem_filter hk)
      exact hl.fromOp b hb act hact k hk
    have hboth : o ∈ l.serialOpers ∧ Relation.ReflTransGen
        (fun a b ↦ b ∈ l.serialOpers ∧ a ∈ l.flowSources flowDep sm b) o l.loopBackBr := by
      induction hpath using Relation.ReflTransGen.head_induction_on with
      | refl => exact ⟨hl.loopBackBr_mem, .refl⟩
      | head hedge _ ih => exact ⟨hmem ih.1 hedge, ih.2.head ⟨ih.1, hedge⟩⟩
    exact hboth.2

theorem markBranchPathOpers_counter :
    Relation.ReflTransGen
        (fun a b ↦ a ∈ counterLoop.flowSources (fun _ ↦ true) counterStart b) 5 1 ∧
      ¬Relation.ReflTransGen
        (fun a b ↦ a ∈ counterLoop.flowSources (fun _ ↦ true) counterStart b) 4 1 := by
  have hmarks := markBranchPathOpers_iff counterLoop sound_counterLoop (fun _ ↦ true) counterStart
    (by decide) (by decide)
  exact ⟨(hmarks 5).1 rfl, fun h ↦ absurd ((hmarks 4).2 h) Bool.false_ne_true⟩

end Marks

section Compaction

variable {l : PipeLoop} {Inv : l.manager.State → Prop} {branchPathNode : ℕ → Bool}
  {s s₀ s' : PipeState l} {o : ℕ}

/-- The pass after some of its moves: only operations of the chain have moved, and to earlier stages. -/
abbrev Compacted (Inv : l.manager.State → Prop) (branchPathNode : ℕ → Bool) (s₀ s : PipeState l) :
    Prop :=
  Moved Inv (-l.cb.ii) (fun o ↦ !branchPathNode o) s₀ s

theorem compacted_compactOper (hm : l.manager.Lawful l.cb Inv) {p p' : PipeState l × ℤ}
    (h : Compacted Inv branchPathNode s₀ p.1) (hrun : compactOper l branchPathNode p o = .ok p') :
    Compacted Inv branchPathNode s₀ p'.1 ∧ p'.2 =
      if l.startStop o = false ∧ branchPathNode o = false then min (p.1.schedCycle o) p.2
      else p.2 := by
  obtain ⟨s, e⟩ := p
  rw [compactOper] at hrun
  split_ifs at hrun with hstart hnode hlt
  · obtain rfl := Except.ok.inj hrun
    exact ⟨h, by simp [hstart]⟩
  · obtain rfl := Except.ok.inj hrun
    refine ⟨h, ?_⟩
    rw [if_pos (by simp_all), min_eq_left hlt.le]
  · obtain rfl := Except.ok.inj hrun
    refine ⟨h, ?_⟩
    rw [if_pos (by simp_all), min_eq_right (not_lt.1 hlt)]
  · obtain ⟨slack, -, hrun⟩ := Run.bind_eq_ok.1 hrun
    obtain ⟨earliest, -, hrun⟩ := Run.bind_eq_ok.1 hrun
    obtain ⟨t, ht, hrun⟩ := Run.bind_eq_ok.1 hrun
    obtain ⟨s₁, hresched, hrun⟩ := Run.bind_eq_ok.1 hrun
    obtain rfl := Except.ok.inj hrun
    obtain ⟨n, rfl, -, -⟩ := stageLoop_spec ht
    exact ⟨(h.reschedule hm hresched (by simpa using hnode)).1, by simp_all⟩

/-- **The first loop** finds a cycle before which no operation outside of the chain is scheduled. -/
theorem compacted_foldlM_compactOper (hm : l.manager.Lawful l.cb Inv) {os : List ℕ}
    (hos : ∀ o ∈ os, o ∈ l.serialOpers) {p p' : PipeState l × ℤ}
    (h : Compacted Inv branchPathNode s₀ p.1) (hplaced : s₀.Placed)
    (hrun : os.foldlM (compactOper l branchPathNode) p = .ok p') :
    Compacted Inv branchPathNode s₀ p'.1 ∧ p'.2 ≤ p.2 ∧
      (∀ o ∈ os, l.startStop o = false → branchPathNode o = false → p'.2 ≤ s₀.schedCycle o) ∧
      (0 ≤ p.2 → (∀ o ∈ os, l.startStop o = false → branchPathNode o = false →
        0 ≤ s₀.schedCycle o) → 0 ≤ p'.2) := by
  induction os generalizing p with
  | nil =>
    obtain rfl := Except.ok.inj hrun
    exact ⟨h, le_refl _, fun o ho ↦ absurd ho List.not_mem_nil, fun he _ ↦ he⟩
  | cons o os ih =>
    rw [List.foldlM_cons] at hrun
    obtain ⟨q, hq, hrun⟩ := Run.bind_eq_ok.1 hrun
    obtain ⟨hcompacted, heq⟩ := compacted_compactOper hm h hq
    obtain ⟨hmem, hos⟩ := List.forall_mem_cons.1 hos
    obtain ⟨hend, hle, hall, hnonneg⟩ := ih hos hcompacted hrun
    by_cases hout : l.startStop o = false ∧ branchPathNode o = false
    · -- an operation outside of the chain is where it was
      have hcycle : p.1.schedCycle o = s₀.schedCycle o :=
        (PipeState.schedCycle_of_place
          ((h.fixed o (by rw [hout.2]; rfl)).trans (hplaced o hmem hout.1))).1
      rw [if_pos hout, hcycle] at heq
      refine ⟨hend, by omega, fun o' ho' hreal hnode ↦ ?_, fun he hcycles ↦ ?_⟩
      · rcases List.mem_cons.1 ho' with rfl | ho'
        · omega
        · exact hall o' ho' hreal hnode
      · obtain ⟨hfirst, hcycles⟩ := List.forall_mem_cons.1 hcycles
        have := hfirst hout.1 hout.2
        exact hnonneg (by omega) hcycles
    · rw [if_neg hout] at heq
      refine ⟨hend, by omega, fun o' ho' hreal hnode ↦ ?_, fun he hcycles ↦
        hnonneg (by omega) fun o' ho' ↦ hcycles o' (List.mem_cons_of_mem _ ho')⟩
      rcases List.mem_cons.1 ho' with rfl | ho'
      · exact absurd ⟨hreal, hnode⟩ hout
      · exact hall o' ho' hreal hnode

theorem compacted_pushOper (hm : l.manager.Lawful l.cb Inv) {stageDiff : ℤ} (hdiff : stageDiff < 0)
    (hissue : ∀ o ∈ l.serialOpers, l.startStop o = false →
      (s₀.info o).issueSlot = (s₀.schedSlot o : ℕ)) (hmem : o ∈ l.serialOpers)
    (h : Compacted Inv branchPathNode s₀ s)
    (hrun : pushOper l branchPathNode stageDiff s o = .ok s') :
    Compacted Inv branchPathNode s₀ s' ∧
      if branchPathNode o = true ∧ l.startStop o = false then Move s s' o (stageDiff * l.cb.ii)
      else s' = s := by
  rw [pushOper] at hrun
  split_ifs at hrun with hnode
  · obtain ⟨distance, hdist, hrun⟩ := Run.bind_eq_ok.1 hrun
    obtain ⟨t, ht, hrun⟩ := Run.bind_eq_ok.1 hrun
    obtain rfl := (int32_eq_ok.1 hdist).2
    obtain rfl := (int32_eq_ok.1 ht).2
    rw [Bool.and_eq_true, Bool.not_eq_true'] at hnode
    obtain ⟨n, hplace⟩ := h.stages o hmem hnode.2
    rw [h.issueSlot, hissue o hmem hnode.2, ← (PipeState.schedCycle_of_place hplace).2] at hrun
    have hsteps : stageDiff * l.cb.ii = ((-stageDiff).toNat : ℤ) * -l.cb.ii := by
      rw [Int.toNat_of_nonneg (by omega), neg_mul_neg]
    rw [hsteps] at hrun ⊢
    rw [if_pos hnode]
    exact h.reschedule hm hrun (by rw [hnode.1]; rfl)
  · obtain rfl := Except.ok.inj hrun
    exact ⟨h, by rw [if_neg (by simpa using hnode)]⟩

/-- **The second loop** moves every operation of the chain by the same number of stages. -/
theorem compacted_foldlM_pushOper (hm : l.manager.Lawful l.cb Inv) {stageDiff : ℤ}
    (hdiff : stageDiff < 0)
    (hissue : ∀ o ∈ l.serialOpers, l.startStop o = false →
      (s₀.info o).issueSlot = (s₀.schedSlot o : ℕ)) {os : List ℕ}
    (hos : ∀ o ∈ os, o ∈ l.serialOpers) (hnodup : os.Nodup) (h : Compacted Inv branchPathNode s₀ s)
    (hrun : os.foldlM (pushOper l branchPathNode stageDiff) s = .ok s') :
    Compacted Inv branchPathNode s₀ s' ∧ (∀ o, o ∉ os → s'.place o = s.place o) ∧
      ∀ o ∈ os, branchPathNode o = true → l.startStop o = false →
        s'.schedCycle o = s.schedCycle o + stageDiff * l.cb.ii := by
  induction os generalizing s with
  | nil =>
    obtain rfl := Except.ok.inj hrun
    exact ⟨h, fun _ _ ↦ rfl, fun o ho ↦ absurd ho List.not_mem_nil⟩
  | cons o os ih =>
    obtain ⟨hnotMem, hnodup⟩ := List.nodup_cons.1 hnodup
    rw [List.foldlM_cons] at hrun
    obtain ⟨s₁, hs₁, hrun⟩ := Run.bind_eq_ok.1 hrun
    obtain ⟨hcompacted, hmove⟩ :=
      compacted_pushOper hm hdiff hissue (hos o List.mem_cons_self) h hs₁
    have hframe (o' : ℕ) (hne : o' ≠ o) : s₁.place o' = s.place o' := by
      split_ifs at hmove
      · exact hmove.frame o' hne
      · rw [hmove]
    obtain ⟨hend, hsame, hpushed⟩ :=
      ih (fun o ho ↦ hos o (List.mem_cons_of_mem _ ho)) hnodup hcompacted hrun
    refine ⟨hend, fun o' ho' ↦ ?_, fun o' ho' hnode hreal ↦ ?_⟩
    · rw [List.mem_cons, not_or] at ho'
      exact (hsame o' ho'.2).trans (hframe o' ho'.1)
    · rcases List.mem_cons.1 ho' with rfl | ho'
      · rw [if_pos ⟨hnode, hreal⟩] at hmove
        exact (PipeState.schedCycle_of_place ((hsame _ hnotMem).trans hmove.place)).1
      · have hne : o' ≠ o := fun heq ↦ hnotMem (heq ▸ ho')
        have hplace := (hframe o' hne).trans
          (h.placed o' (hos o' (List.mem_cons_of_mem _ ho')) hreal)
        rw [hpushed o' ho' hnode hreal, (PipeState.schedCycle_of_place hplace).1]

/-- A cycle in a later stage, moved by the difference, is in the earlier stage. -/
theorem tdiv_push {e b ii : ℤ} (hii : 1 ≤ ii) (he : 0 ≤ e) (hlt : e.tdiv ii - b.tdiv ii < 0) :
    (b + (e.tdiv ii - b.tdiv ii) * ii).tdiv ii = e.tdiv ii := by
  have hE : 0 ≤ e.tdiv ii := Int.tdiv_nonneg he (by omega)
  have hb : 0 ≤ b := by
    by_contra hneg
    have := Int.tdiv_nonneg (by omega : 0 ≤ -b) (by omega : 0 ≤ ii)
    rw [Int.neg_tdiv] at this
    omega
  have hdiv : (b + (e.tdiv ii - b.tdiv ii) * ii) / ii = e.tdiv ii := by
    rw [Int.add_mul_ediv_right _ _ (by omega), ← Int.tdiv_eq_ediv_of_nonneg hb]
    omega
  rw [Int.tdiv_eq_ediv_of_nonneg, hdiv]
  by_contra hneg
  have := Int.ediv_neg_of_neg_of_pos (not_le.1 hneg) (by omega : 0 < ii)
  omega

/-- The whole pass. With no negative cycle outside of the chain, the branch ends up in no later stage
than the earliest of the operations outside. -/
theorem compacted_compactBranchPathOpers (hl : l.Sound) (hcb : l.cb.Sound)
    (hm : l.manager.Lawful l.cb Inv) (hbranch : branchPathNode l.loopBackBr = true) (hinv : Inv s.sm)
    (hplaced : s.Placed)
    (hissue : ∀ o ∈ l.serialOpers, l.startStop o = false →
      (s.info o).issueSlot = (s.schedSlot o : ℕ))
    (hrun : compactBranchPathOpers l branchPathNode s l.loopBackBr = .ok s') :
    Compacted Inv branchPathNode s s' ∧
      ((∀ o ∈ l.serialOpers, l.startStop o = false → branchPathNode o = false →
        0 ≤ s.schedCycle o) → ∀ o ∈ l.serialOpers, l.startStop o = false →
        branchPathNode o = false →
          (s'.schedCycle l.loopBackBr).tdiv l.cb.ii ≤ (s.schedCycle o).tdiv l.cb.ii) := by
  have hii := hcb.one_le_ii
  obtain ⟨⟨s₁, e⟩, hfirst, hrun⟩ := Run.bind_eq_ok.1 hrun
  obtain ⟨stageDiff, hdiff, hrun⟩ := Run.bind_eq_ok.1 hrun
  obtain rfl := (int32_eq_ok.1 hdiff).2
  obtain ⟨hcompacted, -, hearliest, hnonneg⟩ := compacted_foldlM_compactOper hm (fun _ ho ↦ ho)
    (Moved.refl hinv hplaced) hplaced hfirst
  have hstage (o : ℕ) (ho : o ∈ l.serialOpers) (hreal : l.startStop o = false)
      (hnode : branchPathNode o = false) : e.tdiv l.cb.ii ≤ (s.schedCycle o).tdiv l.cb.ii :=
    Int.tdiv_le_tdiv (by omega) (hearliest o ho hreal hnode)
  split_ifs at hrun with hlt
  · obtain ⟨hend, -, hpushed⟩ := compacted_foldlM_pushOper hm hlt hissue (fun _ ho ↦ ho) hl.nodup
      hcompacted hrun
    refine ⟨hend, fun hcycles o ho hreal hnode ↦ ?_⟩
    rw [hpushed _ hl.loopBackBr_mem hbranch hl.loopBackBr_real,
      tdiv_push hii (hnonneg (show (0 : ℤ) ≤ Sm.maxCycle by decide) hcycles) hlt]
    exact hstage o ho hreal hnode
  · obtain rfl := Except.ok.inj hrun
    exact ⟨hcompacted, fun _ o ho hreal hnode ↦ (by omega : _ ≤ e.tdiv l.cb.ii).trans
      (hstage o ho hreal hnode)⟩

/-- **Every run of the pass that returns** leaves a modulo schedule with the kernel it found. Only the
operations of the chain are moved, and to earlier stages; and if no cycle outside of the chain is
negative, then no operation outside of the chain is in an earlier stage than the loop-back branch. -/
theorem compactBranchPathOpers_spec (l : PipeLoop) (hl : l.Sound) (hcb : l.cb.Sound)
    (Inv : l.manager.State → Prop) (hm : l.manager.Lawful l.cb Inv) (branchPathNode : ℕ → Bool)
    (hbranch : branchPathNode l.loopBackBr = true) (s s' : PipeState l) (hinv : Inv s.sm)
    (hsched : l.Scheduled s.sm)
    (hissue : ∀ o ∈ l.serialOpers, l.startStop o = false →
      (s.info o).issueSlot = (s.schedSlot o : ℕ))
    (hnonneg : ∀ o ∈ l.serialOpers, l.startStop o = false → branchPathNode o = false →
      0 ≤ s.schedCycle o)
    (hrun : compactBranchPathOpers l branchPathNode s l.loopBackBr = .ok s') :
    l.Scheduled s'.sm ∧ (∀ o, branchPathNode o = false → s'.place o = s.place o) ∧
      (∀ o ∈ l.serialOpers, l.startStop o = false → s'.schedSlot o = s.schedSlot o ∧
        s'.schedCycle o ≡ s.schedCycle o [ZMOD l.cb.ii] ∧ s'.schedCycle o ≤ s.schedCycle o) ∧
      ∀ o ∈ l.serialOpers, l.startStop o = false → branchPathNode o = false →
        (s'.schedCycle l.loopBackBr).tdiv l.cb.ii ≤ (s'.schedCycle o).tdiv l.cb.ii := by
  obtain ⟨hend, hstage⟩ :=
    compacted_compactBranchPathOpers hl hcb hm hbranch hinv hsched.placed hissue hrun
  refine ⟨hend.placed.scheduled hm hcb hend.manager, fun o hnode ↦ hend.fixed o (by rw [hnode]; rfl),
    fun o hmem hreal ↦ ?_, fun o hmem hreal hnode ↦ ?_⟩
  · obtain ⟨hslot, hrow⟩ := hend.kernel (Int.dvd_neg.2 dvd_rfl) hmem hreal
    exact ⟨hslot, hrow, hend.schedCycle_le (by have := hcb.one_le_ii; omega) hmem hreal⟩
  · have hplace := (hend.fixed o (by rw [hnode]; rfl)).trans (hsched.placed o hmem hreal)
    rw [(PipeState.schedCycle_of_place hplace).1]
    exact hstage hnonneg o hmem hreal hnode

/-- The slots are copied. -/
def withSlots (s : PipeState l) : PipeState l :=
  { s with info := fun o ↦ { s.info o with issueSlot := (s.schedSlot o : ℕ) } }

theorem compactBranchPathOpers_counter :
    ∃ s s', counterScheduled = .ok s ∧
      compactBranchPathOpers counterLoop (fun o ↦ o ∈ [0, 1, 5]) (withSlots s) 1 = .ok s' ∧
      counterLoop.Scheduled s'.sm ∧ s.schedCycle 5 = 1998 ∧ s'.schedCycle 5 = 1994 := by
  have hrun : (do
      let s ← counterScheduled
      let s' ← compactBranchPathOpers counterLoop (fun o ↦ o ∈ [0, 1, 5]) (withSlots s) 1
      .ok (s.schedCycle 4, s.schedCycle 5, s'.schedCycle 5) : Run (ℤ × ℤ × ℤ)) =
        .ok (1999, 1998, 1994) := by decide +kernel
  obtain ⟨s, hs, hrun⟩ := Run.bind_eq_ok.1 hrun
  obtain ⟨s', hs', hrun⟩ := Run.bind_eq_ok.1 hrun
  obtain ⟨hfour, hfive⟩ := Prod.mk.inj (Except.ok.inj hrun)
  have hlawful := lawful_smManager (R := slotMap 2) sound_counterCb selfDepsCarried_counterCb
  obtain ⟨hinv, hplaced⟩ := counterScheduled_spec hs
  have hnonneg : ∀ o ∈ counterLoop.serialOpers, counterLoop.startStop o = false →
      decide (o ∈ [0, 1, 5]) = false → 0 ≤ (withSlots s).schedCycle o := by
    intro o ho hreal hnode
    obtain rfl : o = 4 := by
      revert o
      decide
    exact (by decide : (0 : ℤ) ≤ 1999).trans hfour.ge
  exact ⟨s, s', hs, hs', (compactBranchPathOpers_spec counterLoop sound_counterLoop sound_counterCb _
    hlawful (fun o ↦ o ∈ [0, 1, 5]) rfl (withSlots s) s' hinv
    (hplaced.scheduled hlawful sound_counterCb hinv) (fun _ _ _ ↦ rfl) hnonneg hs').1,
    Prod.mk.inj hfive⟩

end Compaction

end OpenImpact.Softpipe
