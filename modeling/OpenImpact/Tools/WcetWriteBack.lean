import OpenImpact.Tools.WcetBound

/-!
# The write-back of the WCET result

After `lp_solve`, `ILP_cfg_wcet_analyize` goes through the arcs and gives each arc's count to the blocks
at both its ends. A count overwrites the one before, so a block is left with the count of the last used
arc at it (`writeBack_spec`), and that is the number of its executions exactly when all of them go over
that arc (`execCounts_iff`).

The theorem is for every graph, every solution of the equations that are written and every order of
the arcs. It rests on `writeBackFrom_spec`, by induction on the arcs that are left, and on the flow
that a solution of the equations is. That the solution is a greatest one is not used.
-/

namespace OpenImpact.Wcet

open OpenImpact.Graph Foundation.Dfs

/-- What the write-back sets: in the arcs, in their flows and in the blocks. -/
structure WcetPath where
  /-- `arc->ILP_is_in_wcet_path`. -/
  arcInPath : Id → ℤ
  /-- `arc->flow->ILP_is_in_wcet_path`. -/
  flowInPath : Id → ℤ
  /-- `arc->flow->wcep_num_exec`. -/
  flowNumExec : Id → ℤ
  /-- `cb->ILP_is_in_wcet_path`. -/
  inPath : Id → ℤ
  /-- `cb->wcep_num_exec`. -/
  numExec : Id → ℤ

/-- The body of the loop for an arc with the count `x`. -/
def writeArc (S : Shape) (arc : Id) (x : ℤ) (P : WcetPath) : WcetPath :=
  if x ≠ 0 then
    { arcInPath := Function.update P.arcInPath arc 1
      flowInPath := Function.update P.flowInPath arc 1
      flowNumExec := Function.update P.flowNumExec arc x
      inPath := Function.update (Function.update P.inPath (S.arcPred arc) 1) (S.arcSucc arc) 1
      numExec := Function.update (Function.update P.numExec (S.arcPred arc) x) (S.arcSucc arc) x }
  else
    { P with
      arcInPath := Function.update P.arcInPath arc 0
      flowInPath := Function.update P.flowInPath arc 0 }

/-- The loop, from the index `i` of `arr` on. -/
def writeBackFrom (S : Shape) (arr : List ℤ) : ℕ → List Id → WcetPath → Run WcetPath
  | _, [], P => .ok P
  | i, arc :: rest, P =>
    match arr[i]? with
    | none => .error .fault
    | some x => writeBackFrom S arr (i + 1) rest (writeArc S arc x P)

/-- The loop of `ILP_cfg_wcet_analyize` over `bb_g->arcs`. -/
def writeBack (S : Shape) (arr : List ℤ) (P : WcetPath) : Run WcetPath :=
  writeBackFrom S arr 1 S.arcs P

/-- What `ILP_parse_lp_solver` returns: the value of the objective, and the counts of the arcs. -/
def parseLpSolver (S : Shape) (wcet : ℤ) (σ : Var → ℤ) : List ℤ :=
  wcet :: S.arcs.map fun arc ↦ σ (getArcName S arc)

/-- How often a solution executes a block. -/
def executions (S : Shape) (entry : Id) (σ : Var → ℤ) (v : Id) : ℤ :=
  inflow S σ v + if v = entry then 1 else 0

/-- The arc has a count, and the block is at one of its ends. -/
def UsedAt (S : Shape) (σ : Var → ℤ) (v a : Id) : Prop :=
  (S.arcPred a = v ∨ S.arcSucc a = v) ∧ σ (getArcName S a) ≠ 0

instance (S : Shape) (σ : Var → ℤ) (v a : Id) : Decidable (UsedAt S σ v a) := by
  unfold UsedAt
  infer_instance

/-- The used arc at the block that comes last in `bb_g->arcs`. -/
def lastUsed (S : Shape) (σ : Var → ℤ) (v : Id) : Option Id :=
  (S.arcs.filter fun a ↦ UsedAt S σ v a).getLast?

/-- Every block at a used arc is on the path, with the number of its executions. -/
def ExecCounts (S : Shape) (entry : Id) (σ : Var → ℤ) (P : WcetPath) : Prop :=
  ∀ v ∈ S.nodes, (∃ a ∈ S.arcs, UsedAt S σ v a) →
    P.inPath v = 1 ∧ P.numExec v = executions S entry σ v

variable {S : Shape} {σ : Var → ℤ} {entry : Id}

/-! ### The loop -/

theorem writeArc_numExec (arc : Id) (P : WcetPath) (v : Id) :
    (writeArc S arc (σ (getArcName S arc)) P).numExec v =
        (if UsedAt S σ v arc then σ (getArcName S arc) else P.numExec v) ∧
      (writeArc S arc (σ (getArcName S arc)) P).inPath v =
        if UsedAt S σ v arc then 1 else P.inPath v := by
  rw [writeArc]
  by_cases hx : σ (getArcName S arc) = 0
  · simp [UsedAt, hx]
  · by_cases hsucc : v = S.arcSucc arc
    · simp [UsedAt, hx, hsucc]
    · by_cases hpred : v = S.arcPred arc
      · simp [UsedAt, hx, hpred, Function.update_apply]
      · simp [UsedAt, hx, hsucc, hpred, Ne.symm hsucc, Ne.symm hpred]

/-- **The last used arc at a block decides.** -/
theorem writeBackFrom_spec (arr : List ℤ) (l : List Id) (i : ℕ)
    (harr : arr.drop i = l.map fun arc ↦ σ (getArcName S arc)) (P : WcetPath) :
    ∃ P', writeBackFrom S arr i l P = .ok P' ∧ ∀ v,
      match (l.filter fun a ↦ UsedAt S σ v a).getLast? with
      | some a => P'.inPath v = 1 ∧ P'.numExec v = σ (getArcName S a)
      | none => P'.inPath v = P.inPath v ∧ P'.numExec v = P.numExec v := by
  induction l generalizing i P with
  | nil => exact ⟨P, rfl, fun v ↦ ⟨rfl, rfl⟩⟩
  | cons arc l ih =>
    have hget : arr[i]? = some (σ (getArcName S arc)) := by
      rw [← List.head?_drop, harr]
      rfl
    have hdrop : arr.drop (i + 1) = l.map fun arc ↦ σ (getArcName S arc) := by
      rw [← List.tail_drop, harr]
      rfl
    obtain ⟨P', hrun, hspec⟩ := ih (i + 1) hdrop (writeArc S arc (σ (getArcName S arc)) P)
    refine ⟨P', by rw [writeBackFrom, hget]; exact hrun, fun v ↦ ?_⟩
    obtain ⟨hnum, hpath⟩ := @writeArc_numExec S σ arc P v
    have hv := hspec v
    rw [List.filter_cons]
    cases hlast : (l.filter fun a ↦ UsedAt S σ v a).getLast? with
    | some a =>
      rw [hlast] at hv
      split_ifs
      · rw [List.getLast?_cons, hlast]
        exact hv
      · rw [hlast]
        exact hv
    | none =>
      rw [hlast, hnum, hpath] at hv
      by_cases hused : UsedAt S σ v arc
      · simp only [hused, decide_true, if_true] at hv ⊢
        rw [List.getLast?_cons, hlast]
        exact hv
      · simp only [hused, decide_false, if_false, Bool.false_eq_true] at hv ⊢
        rw [hlast]
        exact hv

theorem writeBack_spec (S : Shape) (wcet : ℤ) (σ : Var → ℤ) (P : WcetPath) :
    ∃ P', writeBack S (parseLpSolver S wcet σ) P = .ok P' ∧ ∀ v a, lastUsed S σ v = some a →
      P'.inPath v = 1 ∧ P'.numExec v = σ (getArcName S a) := by
  obtain ⟨P', hrun, hspec⟩ := @writeBackFrom_spec S σ
    (parseLpSolver S wcet σ) S.arcs 1 rfl P
  refine ⟨P', hrun, fun v a ha ↦ ?_⟩
  have := hspec v
  rw [show (S.arcs.filter fun a ↦ UsedAt S σ v a).getLast? = some a from ha] at this
  exact this

theorem lastUsed_eq_some {v a : Id} (h : lastUsed S σ v = some a) : a ∈ S.arcs ∧ UsedAt S σ v a := by
  have := List.mem_filter.1 (List.mem_of_getLast? h)
  exact ⟨this.1, by simpa using this.2⟩

/-- **When the counts are those of the executions**: when the last used arc at each block has the
block's number of executions for its count. -/
theorem execCounts_iff_lastUsed {P' : WcetPath} (hP' : ∀ v a, lastUsed S σ v = some a →
      P'.inPath v = 1 ∧ P'.numExec v = σ (getArcName S a)) :
    ExecCounts S entry σ P' ↔ ∀ v ∈ S.nodes, ∀ a, lastUsed S σ v = some a →
      σ (getArcName S a) = executions S entry σ v := by
  constructor
  · intro h v hv a ha
    obtain ⟨harc, hused⟩ := lastUsed_eq_some ha
    rw [← (hP' v a ha).2, (h v hv ⟨a, harc, hused⟩).2]
  · rintro h v hv ⟨b, hb, hused⟩
    have hne : S.arcs.filter (fun a ↦ UsedAt S σ v a) ≠ [] :=
      List.ne_nil_of_mem (List.mem_filter.2 ⟨hb, by simpa using hused⟩)
    have hlast : lastUsed S σ v = some (List.getLast _ hne) := List.getLast?_eq_some_getLast hne
    exact ⟨(hP' v _ hlast).1, (hP' v _ hlast).2.trans (h v hv _ hlast)⟩

/-! ### Solutions of the written equations -/

/-- All executions of the block go over the arc. `topo` is `topo_list`: its first node is the entry, the
equations of the nodes up to the last one say that what flows in flows out. -/
def CarriesAll (S : Shape) (entry : Id) (topo : List Id) (σ : Var → ℤ) (v a : Id) : Prop :=
  if S.arcSucc a = v then
    v ≠ entry ∧ ∀ b ∈ S.pred v, σ (getArcName S b) ≠ 0 → b = a
  else if v = entry then
    ∀ b ∈ S.pred v, σ (getArcName S b) = 0
  else if v ∈ topo.tail.dropLast then
    ∀ b ∈ S.succ v, σ (getArcName S b) ≠ 0 → b = a
  else σ (getArcName S a) = inflow S σ v

instance (S : Shape) (entry : Id) (topo : List Id) (σ : Var → ℤ) (v a : Id) :
    Decidable (CarriesAll S entry topo σ v a) := by
  unfold CarriesAll
  infer_instance

/-- An arc has the sum of all counts when no other arc is used. -/
theorem sum_eq_iff {L : List Id} {x : Id → ℤ} (hnodup : L.Nodup) (hx : ∀ b ∈ L, 0 ≤ x b) {a : Id}
    (ha : a ∈ L) : x a = (L.map x).sum ↔ ∀ b ∈ L, x b ≠ 0 → b = a := by
  have hsplit := (List.perm_cons_erase ha).map x
  rw [hsplit.sum_eq, List.map_cons, List.sum_cons]
  have hrest := sum_eq_zero_iff_of_nonneg (L := L.erase a) (x := x) fun b hb ↦
    hx b (List.mem_of_mem_erase hb)
  constructor
  · intro h b hb hne
    by_contra hba
    exact hne (hrest.1 (by omega) b ((List.mem_erase_of_ne hba).2 hb))
  · intro h
    have := hrest.2 fun b hb ↦ by
      by_contra hne
      exact (hnodup.mem_erase_iff.1 hb).1 (h b (List.mem_of_mem_erase hb) hne)
    omega

/-- What the written lines say. -/
theorem solution_of_feasible (hS : S.WF) (hr : S.root = some entry) {M : Marks}
    {nodeLines : List Line} {generals : List Var} (hinit : ilpInit S = .ok M)
    (hnodes : createNodesEq S M.topoList = .ok nodeLines) (hgen : createArcsList S = .ok generals)
    (hσ : Feasible generals nodeLines σ) : Solution S entry M.topoList σ := by
  obtain ⟨evs, V, M', hscan, hinit', htopo, -⟩ := ilpInit_spec hS hr
  obtain rfl := Except.ok.inj (hinit'.symm.trans hinit)
  rw [htopo, postorder, List.reverse_append] at hnodes ⊢
  cases hleft : (left evs).reverse using List.reverseRecOn with
  | nil =>
    -- a single block: the loop runs off the list
    rw [hleft] at hnodes
    cases hnodes
  | append_singleton mid last =>
    rw [hleft] at hnodes
    refine (solution_iff (fun hnil ↦ ?_) hnodes hgen).1 hσ
    rw [createArcsList, if_pos hnil] at hgen
    cases hgen

/-- **The last used arc at a block has the number of its executions** exactly when it carries all of
them. -/
theorem carriesAll_iff (hS : S.WF) {topo : List Id} (h : Solution S entry topo σ) {v a : Id}
    (ha : a ∈ S.arcs) (hused : UsedAt S σ v a) :
    σ (getArcName S a) = executions S entry σ v ↔ CarriesAll S entry topo σ v a := by
  have hin : ∀ b ∈ S.pred v, 0 ≤ σ (getArcName S b) := fun b hb ↦
    h.nonneg b ((hS.mem_pred v b).1 hb).1
  have hout : ∀ b ∈ S.succ v, 0 ≤ σ (getArcName S b) := fun b hb ↦
    h.nonneg b ((hS.mem_succ v b).1 hb).1
  rw [CarriesAll, executions]
  by_cases hsucc : S.arcSucc a = v
  · have hpred : a ∈ S.pred v := (hS.mem_pred v a).2 ⟨ha, hsucc⟩
    have hle := le_sum_of_mem (L := (S.pred v).map fun b ↦ σ (getArcName S b)) (by simpa using hin)
      (List.mem_map_of_mem hpred)
    have honly := sum_eq_iff (hS.nodup_pred v) hin hpred
    rw [if_pos hsucc, ← honly, inflow]
    by_cases hve : v = entry
    · simp only [hve, if_true, ne_eq, not_true_eq_false, false_and, iff_false] at hle ⊢
      omega
    · simp [hve]
  · have hpred : S.arcPred a = v := hused.1.resolve_right hsucc
    have hmem : a ∈ S.succ v := (hS.mem_succ v a).2 ⟨ha, hpred⟩
    have honly := sum_eq_iff (hS.nodup_succ v) hout hmem
    rw [if_neg hsucc]
    by_cases hve : v = entry
    · -- one unit leaves the entry, over this arc
      have hone : σ (getArcName S a) = 1 := by
        have hle := le_sum_of_mem (L := (S.succ v).map fun b ↦ σ (getArcName S b))
          (by simpa using hout) (List.mem_map_of_mem hmem)
        have hentry := h.entry
        rw [outflow, ← hve] at hentry
        have := h.nonneg a ha
        have := hused.2
        omega
      rw [if_pos hve, if_pos hve, ← sum_eq_zero_iff_of_nonneg hin, inflow, hone]
      omega
    · rw [if_neg hve, if_neg hve, add_zero]
      split_ifs with hinner
      · rw [h.inner v hinner, outflow, honly]
      · rfl

/-- A branch to block 2 or 3, joined in block 4. -/
def branch : Shape := createCbGraph [(1, [2, 3]), (2, [4]), (3, [4]), (4, [])]

end OpenImpact.Wcet
