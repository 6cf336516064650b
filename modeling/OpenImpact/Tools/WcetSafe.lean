import OpenImpact.Library.GraphBfs
import OpenImpact.Tools.WcetBound

/-!
# Executions above the bound

`num_iteration` is a bound for each entry into a loop: `ILP_get_backedges_data` stores it as `max_iteration`, and
the hyperblock former multiplies the bounds of nested loops. The constraint written for a back-edge has it as a
bound for the whole execution. So an execution that keeps the bounds in every entry can weigh more than the
maximum of the objective (`nestedLoops_exceeds`).

`boundSafe_iff` says for which paths the maximum is a bound: those that take each back-edge at most
`num_iteration` times in total. It rests on `feasible_iff`, for what is written, and on the flow of a walk
(`Shape.Walk.flow`). Graphs with two arcs between the same blocks, which share a variable, are left out, and
nothing is claimed about `lp_solve`.
-/

namespace OpenImpact.Wcet

open OpenImpact.Graph Foundation.Dfs

variable {S : Shape} {entry exit : Id}

/-! ### When the maximum is a bound -/

/-- The bound is right for a path: the constraint system is written, and for any weights that are not negative
the objective has a maximum, which is at least the weight of the path. -/
def BoundSafe (S : Shape) (M : Marks) (numIteration : Id → ℤ) (l : List Id) : Prop :=
  ∃ nodeLines backLines generals, createNodesEq S M.topoList = .ok nodeLines ∧
    createBackedgesEq S M.backedge numIteration = .ok backLines ∧ createArcsList S = .ok generals ∧
    ∀ wcetWeight : Id → ℤ, (∀ a, 0 ≤ wcetWeight a) → ∃ objective wcet,
      createMaxEq S wcetWeight = .ok objective ∧
      IsGreatest {z | ∃ σ, Feasible generals (nodeLines ++ backLines) σ ∧ eval σ objective = z} wcet ∧
      weightOf wcetWeight l ≤ wcet

/-- The condition on the graph and the path: the exit block is last in `topo_list`, the path does not come back
to the entry, and it keeps the bounds of the back-edges in total. -/
structure SafeCondition (S : Shape) (entry exit : Id) (backedge : Id → Bool) (numIteration : Id → ℤ)
    (l : List Id) : Prop where
  ne : entry ≠ exit
  /-- From the entry, always along the first arc to a block not on the way so far, one ends at the exit. -/
  greedy : Greedy S.succ S.arcSucc [entry] entry exit
  entry_arcs : ∀ a ∈ l, S.arcSucc a ≠ entry
  total : ∀ a ∈ S.arcs, backedge a = true → (l.count a : ℤ) ≤ numIteration a

/-- Each arc has a variable of its own: no two arcs have the same ends. -/
def OwnVariables (S : Shape) : Prop :=
  ∀ a ∈ S.arcs, ∀ b ∈ S.arcs, getArcName S a = getArcName S b → a = b

/-- `topo_list` has all blocks, the entry first. The last one is where the first arcs lead. -/
theorem IsCfg.topoList (h : IsCfg S entry exit) {M : Marks} (hinit : ilpInit S = .ok M) :
    M.topoList = [entry] ∧ entry = exit ∨ ∃ mid last, M.topoList = entry :: (mid ++ [last]) ∧
      S.nodes.Perm M.topoList ∧ (last = exit ↔ Greedy S.succ S.arcSucc [entry] entry exit) := by
  obtain ⟨evs, V, M', hscan, hinit', htopo, -⟩ := ilpInit_spec h.wf h.root
  obtain rfl := Except.ok.inj (hinit'.symm.trans hinit)
  have hmem (v : Id) : v ∈ S.nodes ↔ v ∈ postorder entry evs := by
    rw [hscan.postorder_perm.mem_iff, hscan.mem_preorder_iff_reach]
    exact ⟨h.reach v, mem_nodes_of_reach h.wf h.entry_mem⟩
  have hperm : S.nodes.Perm M'.topoList := by
    rw [htopo]
    exact ((List.perm_ext_iff_of_nodup h.wf.nodup_nodes hscan.nodup_postorder).2 hmem).trans
      (List.reverse_perm _).symm
  have hgreedy := hscan.head?_postorder_iff (w := exit)
  rw [postorder] at htopo hmem hgreedy
  cases hleft : left evs with
  | nil =>
    rw [hleft] at htopo hmem
    have hexit : exit ∈ S.nodes := mem_nodes_of_reach h.wf h.entry_mem (h.coreach entry h.entry_mem)
    exact .inl ⟨htopo, (List.mem_singleton.1 ((hmem exit).1 hexit)).symm⟩
  | cons last rest =>
    rw [hleft] at htopo hgreedy
    refine .inr ⟨rest.reverse, last, ?_, hperm, ?_⟩
    · rw [htopo]
      simp
    · rw [← hgreedy, List.cons_append, List.head?_cons, Option.some_inj]

/-! ### Paths that are not bounded -/

/-- A walk visits its end. -/
theorem Shape.Walk.end_mem {x y : Id} {l : List Id} (h : S.Walk x l y) :
    y ∈ x :: l.map S.arcSucc := by
  induction h with
  | nil => exact List.mem_cons_self
  | cons _ _ ih => exact List.mem_cons_of_mem _ ih

/-- A weight on one arc only. -/
def arcWeight (a b : Id) : ℤ := if b = a then 2 else 0

theorem weightOf_arcWeight (a : Id) (l : List Id) : weightOf (arcWeight a) l = 2 * l.count a := by
  rw [weightOf]
  show (l.map fun b ↦ if b = a then (2 : ℤ) else 0).sum = _
  rw [List.sum_map_ite_eq]
  simp [mul_comm]

theorem sum_arcWeight (hS : S.WF) {a : Id} (ha : a ∈ S.arcs) (σ : Var → ℤ) :
    (S.arcs.map fun b ↦ max (arcWeight a b) 0 * σ (getArcName S b)).sum = 2 * σ (getArcName S a) := by
  have hterm (b : Id) : max (arcWeight a b) 0 * σ (getArcName S b) =
      if b = a then 2 * σ (getArcName S b) else 0 := by
    rw [arcWeight]
    split_ifs <;> simp
  simp only [hterm]
  rw [List.sum_map_ite_eq, List.count_eq_one_of_mem hS.nodup_arcs ha]
  simp

/-- **Each arc of a bounded path** carries as much in some solution: its weight could be all that counts. -/
theorem BoundSafe.exists_solution (hS : S.WF) {M : Marks} {numIteration : Id → ℤ} {l : List Id}
    (h : BoundSafe S M numIteration l) {first last : Id} {mid : List Id}
    (htopo : M.topoList = first :: (mid ++ [last])) {a : Id} (ha : a ∈ S.arcs) :
    ∃ σ, Solution S first M.topoList σ ∧
      (∀ a ∈ S.arcs, M.backedge a = true → σ (getArcName S a) ≤ numIteration a) ∧
      (l.count a : ℤ) ≤ σ (getArcName S a) := by
  obtain ⟨nodeLines, backLines, generals, hnodes, hback, hgen, hbound⟩ := h
  obtain ⟨objective, wcet, hmax, ⟨⟨σ, hσ, heval⟩, -⟩, hle⟩ := hbound (arcWeight a)
    fun b ↦ by rw [arcWeight]; split_ifs <;> decide
  have harcs : S.arcs ≠ [] := List.ne_nil_of_mem ha
  rw [htopo] at hnodes ⊢
  obtain ⟨hsol, hbounds⟩ := (feasible_iff harcs hnodes hback hgen).1 hσ
  refine ⟨σ, hsol, hbounds, ?_⟩
  have hobjective : eval σ objective = 2 * σ (getArcName S a) + 1 := by
    rw [createMaxEq, if_neg harcs] at hmax
    obtain rfl := Except.ok.inj hmax
    rw [eval_objective, hsol.t, sum_arcWeight hS ha]
  rw [weightOf_arcWeight] at hle
  omega

/-- **Every bounded path meets the condition.** -/
theorem BoundSafe.condition (h : IsCfg S entry exit) {M : Marks} (hinit : ilpInit S = .ok M)
    {numIteration : Id → ℤ} {l : List Id} (hl : S.Walk entry l exit) (hsafe : BoundSafe S M numIteration l) :
    SafeCondition S entry exit M.backedge numIteration l := by
  rcases h.topoList hinit with ⟨htopo, -⟩ | ⟨mid, last, htopo, hperm, hlast⟩
  · -- the loop of `ILP_create_nodes_eq` runs off the list
    obtain ⟨_, _, _, hnodes, -⟩ := hsafe
    rw [htopo] at hnodes
    cases hnodes
  have hnodup : (entry :: (mid ++ [last])).Nodup := htopo ▸ hperm.nodup_iff.1 h.wf.nodup_nodes
  have hmem (v : Id) : v ∈ S.nodes ↔ v ∈ entry :: (mid ++ [last]) := htopo ▸ hperm.mem_iff
  have hne : entry ≠ exit := by
    rintro rfl
    have hreach := h.reach last ((hmem last).2 (by simp))
    rcases hreach.cases_head with rfl | ⟨v, ⟨a, ha, -⟩, -⟩
    · simp at hnodup
    · rw [h.succ_exit] at ha
      cases ha
  have hcarried : ∀ a ∈ l, ∀ v, S.arcSucc a = v →
      (∀ σ, Solution S entry M.topoList σ → inflow S σ v = 0) → False := by
    intro a ha v hv hzero
    have harc := hl.mem_arcs h.wf a ha
    obtain ⟨σ, hσ, -, hcount⟩ := hsafe.exists_solution h.wf htopo harc
    have := hσ.eq_zero_of_inflow h.wf (hzero σ hσ) harc hv
    have := List.count_pos_iff.2 ha
    omega
  obtain rfl : last = exit := by
    -- otherwise the equation of the exit says that nothing flows in
    by_contra hlastne
    have hexit := (hmem exit).1 (mem_nodes_of_reach h.wf h.entry_mem (h.coreach entry h.entry_mem))
    have hmid : exit ∈ M.topoList.tail.dropLast := by
      rw [htopo, List.tail_cons, List.dropLast_concat]
      simpa [hne.symm, Ne.symm hlastne] using hexit
    obtain ⟨a, ha, hasucc⟩ := List.mem_map.1 (List.mem_of_ne_of_mem hne.symm (Shape.Walk.end_mem hl))
    refine hcarried a ha exit hasucc fun σ hσ ↦ ?_
    rw [hσ.inner exit hmid, outflow, h.succ_exit]
    rfl
  refine ⟨hne, hlast.1 rfl, fun a ha heq ↦ ?_, fun a ha hflag ↦ ?_⟩
  · refine hcarried a ha entry heq fun σ hσ ↦ ?_
    rw [htopo] at hσ hperm
    exact hσ.inflow_entry h hperm
  · obtain ⟨σ, -, hbounds, hcount⟩ := hsafe.exists_solution h.wf htopo ha
    exact hcount.trans (hbounds a ha hflag)

/-! ### Paths that are bounded -/

/-- The counts of a path that meets the condition are a solution. -/
theorem solution_of_walk (h : IsCfg S entry exit) {l : List Id} (hl : S.Walk entry l exit)
    (hentry : ∀ a ∈ l, S.arcSucc a ≠ entry) {σ : Var → ℤ} (hσ : PathCounts S l σ) {mid : List Id}
    (hnodup : (entry :: (mid ++ [exit])).Nodup) : Solution S entry (entry :: (mid ++ [exit])) σ := by
  have hin (v : Id) : inflow S σ v = ((S.pred v).map fun a ↦ ((l.count a : ℕ) : ℤ)).sum :=
    congrArg List.sum (List.map_congr_left fun a ha ↦ hσ.arc a ((h.wf.mem_pred v a).1 ha).1)
  have hout (v : Id) : outflow S σ v = ((S.succ v).map fun a ↦ ((l.count a : ℕ) : ℤ)).sum :=
    congrArg List.sum (List.map_congr_left fun a ha ↦ hσ.arc a ((h.wf.mem_succ v a).1 ha).1)
  have hflow (v : Id) : (if v = entry then 1 else 0) + inflow S σ v =
      outflow S σ v + if v = exit then 1 else 0 := by
    rw [hin, hout]
    exact Shape.Walk.flow h.wf hl v
  have hentryIn : inflow S σ entry = 0 := by
    rw [hin, sum_eq_zero_iff_of_nonneg fun _ _ ↦ Int.natCast_nonneg _]
    intro a ha
    rw [List.count_eq_zero.2 fun hal ↦ hentry a hal ((h.wf.mem_pred entry a).1 ha).2]
    rfl
  have hexitOut : outflow S σ exit = 0 := by
    rw [outflow, h.succ_exit]
    rfl
  simp only [List.nodup_cons, List.mem_append, List.mem_singleton, not_or, List.nodup_append] at hnodup
  obtain ⟨⟨hmid, hne⟩, -, -, hdisj⟩ := hnodup
  refine ⟨fun a ha ↦ ?_, hσ.s, hσ.t, ?_, fun v hv ↦ ?_, ?_⟩
  · rw [hσ.arc a ha]
    exact Int.natCast_nonneg _
  · have := hflow entry
    rw [if_pos rfl, if_neg hne, hentryIn] at this
    omega
  · rw [List.tail_cons, List.dropLast_concat] at hv
    have := hflow v
    rw [if_neg fun heq : v = entry ↦ hmid (heq ▸ hv), if_neg (hdisj v hv exit rfl)] at this
    omega
  · intro v hv
    rw [← List.cons_append, List.getLast?_append] at hv
    obtain rfl : exit = v := Option.some_inj.1 hv
    have := hflow exit
    rw [if_pos rfl, if_neg (Ne.symm hne), hexitOut] at this
    omega

/-- **The objective has a maximum** when there is a feasible point: the flow through each block is bounded. -/
theorem exists_isGreatest (h : IsCfg S entry exit) (hne : entry ≠ exit) {evs : List (Event Id Id)} {V : Set Id}
    (hscan : Scan S.succ S.arcSucc entry [entry] {entry} (S.succ entry) evs V) {backedge : Id → Bool}
    (hback : ∀ a ∈ S.arcs, backedge a = true ↔ ∃ x, .back x a ∈ evs) {numIteration : Id → ℤ}
    {F : (Var → ℤ) → Prop} (hF : ∀ σ, F σ → Flow S entry exit backedge numIteration σ) {σ : Var → ℤ} (hσ : F σ)
    (wcetWeight : Id → ℤ) : ∃ objective wcet, createMaxEq S wcetWeight = .ok objective ∧
      IsGreatest {z | ∃ σ, F σ ∧ eval σ objective = z} wcet ∧
      (S.arcs.map fun a ↦ max (wcetWeight a) 0 * σ (getArcName S a)).sum ≤ wcet - 1 := by
  have hmax : createMaxEq S wcetWeight = .ok ((S.arcs.map fun arc ↦
      (if wcetWeight arc > 0 then wcetWeight arc else 0, getArcName S arc)) ++ [(1, .t)]) := by
    rw [createMaxEq, if_neg (h.arcs_ne_nil hne)]
    rfl
  obtain ⟨C, hC⟩ : ∃ C, ∀ σ, Flow S entry exit backedge numIteration σ →
      (S.arcs.map fun a ↦ max (wcetWeight a) 0 * σ (getArcName S a)).sum ≤ C := by
    refine exists_sum_le (f := fun a σ ↦ max (wcetWeight a) 0 * σ (getArcName S a)) fun a ha ↦ ?_
    obtain ⟨C, hC⟩ : ∃ C, ∀ σ, Flow S entry exit backedge numIteration σ → outflow S σ (S.arcPred a) ≤ C :=
      exists_outflow_le h.wf hscan h.reach hback (postorder entry evs).length (h.wf.arcPred_mem a ha) (by omega)
    exact ⟨max (wcetWeight a) 0 * C, fun σ hσ ↦ mul_le_mul_of_nonneg_left
      ((hσ.le_outflow h.wf ha).trans (hC σ hσ)) (le_max_right _ _)⟩
  obtain ⟨wcet, hmem, hle⟩ := Int.exists_greatest_of_bdd
    (P := fun z ↦ ∃ σ, F σ ∧ eval σ ((S.arcs.map fun arc ↦
      (if wcetWeight arc > 0 then wcetWeight arc else 0, getArcName S arc)) ++ [(1, .t)]) = z)
    ⟨C + 1, by
      rintro z ⟨σ, hσ, rfl⟩
      rw [eval_objective, (hF σ hσ).t]
      exact add_le_add_left (hC σ (hF σ hσ)) 1⟩
    ⟨_, σ, hσ, rfl⟩
  refine ⟨_, wcet, hmax, ⟨hmem, fun z hz ↦ hle z hz⟩, ?_⟩
  have hge := hle _ ⟨σ, hσ, rfl⟩
  rw [eval_objective, (hF σ hσ).t] at hge
  omega

/-- **When the bound is right**, for every control-flow graph and every path from the entry to the exit. -/
theorem boundSafe_iff (h : IsCfg S entry exit) : ∃ M, ilpInit S = .ok M ∧ ∀ numIteration l,
    S.Walk entry l exit →
      (BoundSafe S M numIteration l → SafeCondition S entry exit M.backedge numIteration l) ∧
      (OwnVariables S → SafeCondition S entry exit M.backedge numIteration l → BoundSafe S M numIteration l) := by
  obtain ⟨evs, V, M, hscan, hinit, -, hback⟩ := ilpInit_spec h.wf h.root
  refine ⟨M, hinit, fun numIteration l hl ↦ ⟨fun hsafe ↦ hsafe.condition h hinit hl, fun hown hcond ↦ ?_⟩⟩
  rcases h.topoList hinit with ⟨-, heq⟩ | ⟨mid, last, htopo, hperm, hlast⟩
  · exact absurd heq hcond.ne
  obtain rfl := hlast.2 hcond.greedy
  have harcs := h.arcs_ne_nil hcond.ne
  have hnodes := createNodesEq_cons_append (S := S) entry mid last
  have hback' : createBackedgesEq S M.backedge numIteration =
      .ok ((S.arcs.filter M.backedge).map fun arc ↦ ⟨[(1, getArcName S arc)], .le, numIteration arc⟩) := by
    rw [createBackedgesEq, if_neg harcs]
    rfl
  have hgen : createArcsList S = .ok (.s :: S.arcs.map (getArcName S) ++ [.t]) := by
    rw [createArcsList, if_neg harcs]
    rfl
  have hfeas := @feasible_iff S harcs M.backedge numIteration _ _ _ _ _ _ hnodes hback' hgen
  have hcounts := pathCounts_countsOf hown l
  rw [htopo] at hperm
  have hsol := solution_of_walk h hl hcond.entry_arcs hcounts (hperm.nodup_iff.1 h.wf.nodup_nodes)
  refine ⟨_, _, _, htopo ▸ hnodes, hback', hgen, fun wcetWeight _ ↦ ?_⟩
  obtain ⟨objective, wcet, hmax, hgreatest, hle⟩ := exists_isGreatest h hcond.ne hscan hback
    (fun σ hσ ↦ ((hfeas.1 hσ).1.flow h hperm (hfeas.1 hσ).2))
    (hfeas.2 ⟨hsol, fun a ha hflag ↦ (hcounts.arc a ha).trans_le (hcond.total a ha hflag)⟩) wcetWeight
  refine ⟨objective, wcet, hmax, hgreatest, ?_⟩
  rw [List.map_congr_left fun a ha ↦ by rw [hcounts.arc a ha]] at hle
  have := weightOf_le h.wf wcetWeight (hl.mem_arcs h.wf)
  omega

/-- The loop of `exitFirst` can be gone through ten times. -/
theorem boundSafe_iff_exitFirst : ∃ M, ilpInit exitFirst = .ok M ∧
    BoundSafe exitFirst M (fun _ ↦ 10) [1, 3, 4, 3, 4, 2] := by
  obtain ⟨M, hinit, hsafe⟩ := boundSafe_iff exitFirst_isCfg
  have hwalk : exitFirst.Walk 1 [1, 3, 4, 3, 4, 2] 4 :=
    .cons (by decide) (.cons (by decide) (.cons (by decide) (.cons (by decide) (.cons (by decide)
      (.cons (by decide) (.nil 4))))))
  have hown : OwnVariables exitFirst := by
    unfold OwnVariables
    decide
  have hcount : ∀ a ∈ exitFirst.arcs, (([1, 3, 4, 3, 4, 2].count a : ℕ) : ℤ) ≤ 10 := by decide
  exact ⟨M, hinit, (hsafe _ _ hwalk).2 hown ⟨by decide, .step (e := 1) rfl (.step (e := 2) rfl (.stop rfl)),
    by decide, fun a ha _ ↦ hcount a ha⟩⟩

/-! ### Bounds per entry into a loop -/

/-- Every back-edge leads to a block that dominates its source. -/
def Reducible (S : Shape) (entry : Id) (backedge : Id → Bool) : Prop :=
  ∀ a ∈ S.arcs, backedge a = true → ∀ l, S.Walk entry l (S.arcPred a) →
    S.arcSucc a ∈ entry :: l.map S.arcSucc

/-- The natural loop of a back-edge: its target, the header, and what reaches its source around the
header. -/
def InLoop (S : Shape) (back v : Id) : Prop :=
  v = S.arcSucc back ∨ ∃ l, S.Walk v l (S.arcPred back) ∧ S.arcSucc back ∉ v :: l.map S.arcSucc

/-- An arc enters the loop of a back-edge. -/
def EntersLoop (S : Shape) (back a : Id) : Prop :=
  S.arcSucc a = S.arcSucc back ∧ ¬InLoop S back (S.arcPred a)

/-- A terminating execution path that takes each back-edge at most `num_iteration` times for each entry
into its loop, that is, in every part of the path without an entry. -/
structure EntryExecution (S : Shape) (entry exit : Id) (backedge : Id → Bool)
    (numIteration : Id → ℤ) (l : List Id) : Prop where
  walk : S.Walk entry l exit
  bounded : ∀ back ∈ S.arcs, backedge back = true → ∀ m, m <:+: l →
    (∀ a ∈ m, ¬EntersLoop S back a) → (m.count back : ℤ) ≤ numIteration back

/-- The loop of block 3 lies in the loop of 2 and 3. -/
def nestedLoops : Shape := createCbGraph [(1, [2]), (2, [3]), (3, [3, 2, 4]), (4, [])]

/-- Only the arc of the inner loop has a weight. -/
def nestedWeight (arc : Id) : ℤ := if arc = 3 then 2 else 0

theorem nestedLoops_isCfg : IsCfg nestedLoops 1 4 := by
  have h₁₂ : nestedLoops.Reach 1 2 := .single ⟨1, by decide, rfl⟩
  have h₂₃ : nestedLoops.Reach 2 3 := .single ⟨2, by decide, rfl⟩
  have h₃₄ : nestedLoops.Reach 3 4 := .single ⟨5, by decide, rfl⟩
  have h₂₄ := h₂₃.trans h₃₄
  refine ⟨createCbGraph_wf (by decide) (by decide), rfl, rfl, ?_, ?_⟩
  · exact List.forall_iff_forall_mem.1 ⟨.refl, h₁₂, h₁₂.trans h₂₃, h₁₂.trans h₂₄⟩
  · exact List.forall_iff_forall_mem.1 ⟨h₁₂.trans h₂₄, h₂₄, h₃₄, .refl⟩

/-- The inner loop runs once in each of the two rounds of the outer one: every entry keeps the bound 1,
and the path weighs more than any feasible point. -/
theorem nestedLoops_exceeds : IsCfg nestedLoops 1 4 ∧ (∀ a, 0 ≤ nestedWeight a) ∧
    ∃ M nodeLines backLines generals objective, ilpInit nestedLoops = .ok M ∧
      createNodesEq nestedLoops M.topoList = .ok nodeLines ∧
      createBackedgesEq nestedLoops M.backedge (fun _ ↦ 1) = .ok backLines ∧
      createArcsList nestedLoops = .ok generals ∧
      createMaxEq nestedLoops nestedWeight = .ok objective ∧
      Reducible nestedLoops 1 M.backedge ∧
      EntryExecution nestedLoops 1 4 M.backedge (fun _ ↦ 1) [1, 2, 3, 4, 2, 3, 5] ∧
      ∀ σ, Feasible generals (nodeLines ++ backLines) σ →
        eval σ objective < weightOf nestedWeight [1, 2, 3, 4, 2, 3, 5] := by
  refine ⟨nestedLoops_isCfg, fun a ↦ by rw [nestedWeight]; split_ifs <;> decide, _, _, _, _, _, rfl,
    rfl, rfl, rfl, rfl, ?_, ⟨?_, ?_⟩, fun σ hσ ↦ ?_⟩
  · refine List.forall_iff_forall_mem.1 ⟨fun h ↦ absurd h (by decide),
      fun h ↦ absurd h (by decide), fun _ l hl ↦ Shape.Walk.end_mem hl, fun _ l hl ↦ ?_,
      fun h ↦ absurd h (by decide)⟩
    cases hl with
    | cons he _ =>
      obtain rfl := List.mem_singleton.1 he
      exact List.mem_cons_of_mem _ List.mem_cons_self
  · exact .cons (by decide) (.cons (by decide) (.cons (by decide) (.cons (by decide)
      (.cons (by decide) (.cons (by decide) (.cons (by decide) (.nil 4)))))))
  · refine List.forall_iff_forall_mem.1 ⟨fun h ↦ absurd h (by decide),
      fun h ↦ absurd h (by decide), fun _ m hm hentry ↦ ?_, fun _ m hm _ ↦ ?_,
      fun h ↦ absurd h (by decide)⟩
    · -- the inner loop is entered along arc 2
      have henter : EntersLoop nestedLoops 3 2 := by
        refine ⟨rfl, ?_⟩
        rintro (h | ⟨l, hl, hnot⟩)
        · exact absurd h (by decide)
        · exact hnot (Shape.Walk.end_mem hl)
      have hmem : 2 ∉ m := fun h ↦ hentry 2 h henter
      obtain ⟨t, hmt, ht⟩ := List.infix_iff_prefix_suffix.1 hm
      have hall : ∀ t ∈ [1, 2, 3, 4, 2, 3, 5].tails, ∀ m ∈ t.inits, 2 ∉ m →
          ((m.count 3 : ℕ) : ℤ) ≤ 1 := by decide
      exact hall t ((List.mem_tails _ _).2 ht) m ((List.mem_inits _ _).2 hmt) hmem
    · exact_mod_cast hm.sublist.count_le 4
  · have hinner : eval σ [(1, .d 3 3)] ≤ 1 :=
      hσ.holds ⟨[(1, .d 3 3)], .le, 1⟩ (by decide)
    have ht : eval σ [(1, .t)] = 1 := hσ.holds ⟨[(1, .t)], .eq, 1⟩ (by decide)
    have hobj : eval σ [(0, .d 1 2), (0, .d 2 3), (2, .d 3 3), (0, .d 3 2), (0, .d 3 4), (1, .t)] <
        4 := by
      simp only [eval, List.map_cons, List.map_nil, List.sum_cons, List.sum_nil] at hinner ht ⊢
      omega
    exact hobj

end OpenImpact.Wcet
