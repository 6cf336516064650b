import OpenImpact.Tools.Wcet
import Mathlib.Algebra.BigOperators.Group.List.Basic
import Mathlib.Tactic.Ring

/-!
# Executions and the constraint system

An execution is a walk from the entry block to the exit block. Its arc counts satisfy the flow
equation of every block (`Shape.Walk.flow`). The lines `ILP_create_nodes_eq` writes are these equations
exactly when the traversal behind `topo_list` leaves the exit block first and no arc leads to the entry
block (`eqsMeet_iff`).

The theorem is for every graph between an entry that reaches all blocks and an exit that all blocks
reach, and any numbers of iterations. It rests on the lines as they are written, evaluated for the
counts of a walk, and on the order of `topo_list`, which the traversal decides. What `lp_solve` does
with the lines is not claimed here.
-/

namespace OpenImpact.Wcet

open OpenImpact.Graph Foundation.Dfs

/-- A control-flow graph with one entry block and one exit block, all blocks between them. -/
structure IsCfg (S : Shape) (entry exit : Id) : Prop where
  wf : S.WF
  root : S.root = some entry
  succ_exit : S.succ exit = []
  reach : ∀ v ∈ S.nodes, S.Reach entry v
  coreach : ∀ v ∈ S.nodes, S.Reach v exit

/-- A terminating execution path that takes each back-edge at most `num_iteration` times. -/
structure Execution (S : Shape) (entry exit : Id) (backedge : Id → Bool) (numIteration : Id → ℤ)
    (l : List Id) : Prop where
  walk : S.Walk entry l exit
  bounded : ∀ a ∈ S.arcs, backedge a = true → (l.count a : ℤ) ≤ numIteration a

/-- The assignment of a path: `s` and `t` are 1, and an arc's variable is the number of times the path
crosses the arc. -/
structure PathCounts (S : Shape) (l : List Id) (σ : Var → ℤ) : Prop where
  s : σ .s = 1
  t : σ .t = 1
  arc : ∀ a ∈ S.arcs, σ (getArcName S a) = l.count a

/-- The equation of a block: its inflow, with `s` at the entry, equals its outflow, with `t` at the
exit. -/
def blockLine (S : Shape) (entry exit v : Id) : Line where
  terms := (if v = entry then [(1, .s)] else []) ++ createIncomingList S v ++
    (createTargetList S v ++ if v = exit then [(-1, .t)] else [])
  rel := .eq
  rhs := 0

/-- What is promised about the written constraints, after `ILP_init` left the marks `M`. -/
structure EqsMeet (S : Shape) (entry exit : Id) (numIteration : Id → ℤ) (M : Marks)
    (nodeLines backLines : List Line) : Prop where
  nodes_eq : createNodesEq S M.topoList = .ok nodeLines
  backedges_eq : createBackedgesEq S M.backedge numIteration = .ok backLines
  /-- Each arc has a variable of its own. -/
  arc_injective : ∀ a ∈ S.arcs, ∀ b ∈ S.arcs, getArcName S a = getArcName S b → a = b
  /-- The equations are those of the blocks, in the order of `topo_list`. -/
  lines : nodeLines = ⟨[(1, .s)], .eq, 1⟩ :: M.topoList.map (blockLine S entry exit) ++
    [⟨[(1, .t)], .eq, 1⟩]
  mem_topoList : ∀ v ∈ S.nodes, v ∈ M.topoList
  /-- The last equation is the one of the exit block. -/
  last : M.topoList.getLast? = some exit
  /-- The counts of every execution satisfy every line. -/
  execution : ∀ l, Execution S entry exit M.backedge numIteration l → ∀ σ, PathCounts S l σ →
    ∀ line ∈ nodeLines ++ backLines, line.Holds σ

/-- When the promise is kept. -/
structure EqsCondition (S : Shape) (entry exit : Id) : Prop where
  ne : entry ≠ exit
  /-- From the entry, always along the first arc to a block not on the way so far, one ends at the
  exit. -/
  greedy : Greedy S.succ S.arcSucc [entry] entry exit
  pred_entry : S.pred entry = []
  ends_injective : ∀ a ∈ S.arcs, ∀ b ∈ S.arcs, S.arcPred a = S.arcPred b →
    S.arcSucc a = S.arcSucc b → a = b

/-! ### Flow along a walk -/

/-- Crossing one more arc. -/
theorem sum_mul_count_cons (c : Id → ℤ) (L l : List Id) (a : Id) :
    (L.map fun b ↦ c b * (((a :: l).count b : ℕ) : ℤ)).sum =
      (L.map fun b ↦ c b * ((l.count b : ℕ) : ℤ)).sum + c a * L.count a := by
  induction L with
  | nil => simp
  | cons b L ih =>
    rw [List.map_cons, List.sum_cons, ih, List.map_cons, List.sum_cons]
    by_cases hab : a = b
    · subst hab
      simp only [List.count_cons_self]
      push_cast
      ring
    · rw [List.count_cons_of_ne hab, List.count_cons_of_ne (Ne.symm hab)]
      ring

theorem sum_count_cons (L l : List Id) (a : Id) :
    (L.map fun b ↦ (((a :: l).count b : ℕ) : ℤ)).sum =
      (L.map fun b ↦ ((l.count b : ℕ) : ℤ)).sum + L.count a := by
  simpa using sum_mul_count_cons (fun _ ↦ 1) L l a

variable {S : Shape} (hS : S.WF)

include hS in
/-- **A walk flows through every block.** -/
theorem Shape.Walk.flow {x y : Id} {l : List Id} (h : S.Walk x l y) (v : Id) :
    (if v = x then 1 else 0) + ((S.pred v).map fun a ↦ ((l.count a : ℕ) : ℤ)).sum =
      ((S.succ v).map fun a ↦ ((l.count a : ℕ) : ℤ)).sum + if v = y then 1 else 0 := by
  induction h with
  | nil x => simp [add_comm]
  | @cons x y a l ha _ ih =>
    have hmem : a ∈ S.arcs ∧ S.arcPred a = x := (hS.mem_succ x a).1 ha
    have hin : ((S.pred v).count a : ℤ) = if v = S.arcSucc a then 1 else 0 := by
      simp [(hS.nodup_pred v).count, hS.mem_pred, hmem.1, eq_comm]
    have hout : ((S.succ v).count a : ℤ) = if v = x then 1 else 0 := by
      simp [(hS.nodup_succ v).count, hS.mem_succ, hmem.1, hmem.2, eq_comm]
    rw [sum_count_cons, sum_count_cons, hin, hout]
    omega

/-- The assignment of a path, computed. -/
def countsOf (S : Shape) (l : List Id) : Var → ℤ
  | .s => 1
  | .t => 1
  | .d pred succ =>
    ((S.arcs.find? fun a ↦ getArcName S a = .d pred succ).map fun a ↦ (l.count a : ℤ)).getD 0

/-- When each arc has a variable of its own, every path has an assignment. -/
theorem pathCounts_countsOf (hinj : ∀ a ∈ S.arcs, ∀ b ∈ S.arcs, getArcName S a = getArcName S b → a = b)
    (l : List Id) : PathCounts S l (countsOf S l) where
  s := rfl
  t := rfl
  arc a ha := by
    have hfind : S.arcs.find? (fun b ↦ decide (getArcName S b = getArcName S a)) = some a := by
      cases hb : S.arcs.find? (fun b ↦ decide (getArcName S b = getArcName S a)) with
      | none => exact absurd (List.find?_eq_none.1 hb a ha) (by simp)
      | some b =>
        rw [hinj b (List.mem_of_find?_eq_some hb) a ha (by simpa using List.find?_some hb)]
    have hcounts : countsOf S l (getArcName S a) =
        ((S.arcs.find? fun b ↦ decide (getArcName S b = getArcName S a)).map
          fun a ↦ (l.count a : ℤ)).getD 0 := rfl
    rw [hcounts, hfind]
    rfl

/-! ### Values of the written sums -/

theorem eval_append (σ : Var → ℤ) (p q : List (ℤ × Var)) :
    eval σ (p ++ q) = eval σ p + eval σ q := by
  simp [eval]

theorem eval_createEqList (σ : Var → ℤ) (arcs : List Id) (operator : ℤ) :
    eval σ (createEqList S arcs operator) =
      operator * (arcs.map fun a ↦ σ (getArcName S a)).sum := by
  induction arcs with
  | nil => simp [eval, createEqList]
  | cons a arcs ih =>
    simp only [eval, createEqList, List.map_cons, List.sum_cons] at ih ⊢
    rw [ih]
    ring

include hS in
/-- **The counts of a path satisfy the equation of every block.** -/
theorem blockLine_holds {entry exit : Id} {l : List Id} (h : S.Walk entry l exit) {σ : Var → ℤ}
    (hσ : PathCounts S l σ) (v : Id) : (blockLine S entry exit v).Holds σ := by
  have hflow := Shape.Walk.flow hS h v
  have hin := List.map_congr_left fun a ha ↦ hσ.arc a ((hS.mem_pred v a).1 ha).1
  have hout := List.map_congr_left fun a ha ↦ hσ.arc a ((hS.mem_succ v a).1 ha).1
  have hs : eval σ (if v = entry then [(1, .s)] else []) = if v = entry then 1 else 0 := by
    split_ifs <;> simp [eval, hσ.s]
  have ht : eval σ (if v = exit then [(-1, .t)] else []) = if v = exit then -1 else 0 := by
    split_ifs <;> simp [eval, hσ.t]
  show eval σ _ = 0
  simp only [blockLine, eval_append, createIncomingList, createTargetList, eval_createEqList]
  rw [hin, hout, hs, ht]
  split_ifs at hflow ⊢ <;> omega

/-! ### The written equations -/

/-- The equation written for a node inside the list. -/
def innerLine (S : Shape) (v : Id) : Line :=
  ⟨createIncomingList S v ++ createTargetList S v, .eq, 0⟩

theorem createNodesEqFrom_append (mid : List Id) (last : Id) :
    createNodesEqFrom S (mid ++ [last]) = .ok (mid.map (innerLine S) ++
      [⟨createIncomingList S last ++ [(-1, .t)], .eq, 0⟩, ⟨[(1, .t)], .eq, 1⟩]) := by
  induction mid with
  | nil => rfl
  | cons v mid ih =>
    have hcons : createNodesEqFrom S (v :: (mid ++ [last])) = do
        let lines ← createNodesEqFrom S (mid ++ [last])
        return innerLine S v :: lines := by
      cases mid <;> rfl
    rw [List.cons_append, hcons, ih]
    rfl

theorem createNodesEq_cons_append (first : Id) (mid : List Id) (last : Id) :
    createNodesEq S (first :: (mid ++ [last])) = .ok (⟨[(1, .s)], .eq, 1⟩ ::
      ⟨(1, .s) :: createTargetList S first, .eq, 0⟩ :: (mid.map (innerLine S) ++
      [⟨createIncomingList S last ++ [(-1, .t)], .eq, 0⟩, ⟨[(1, .t)], .eq, 1⟩])) := by
  rw [createNodesEq, createNodesEqFrom_append]
  rfl

variable {entry exit : Id}

theorem blockLine_inner {v : Id} (hentry : v ≠ entry) (hexit : v ≠ exit) :
    blockLine S entry exit v = innerLine S v := by
  simp [blockLine, innerLine, hentry, hexit]

theorem blockLine_exit (hsucc : S.succ exit = []) (hne : exit ≠ entry) :
    blockLine S entry exit exit = ⟨createIncomingList S exit ++ [(-1, .t)], .eq, 0⟩ := by
  simp [blockLine, hne, createTargetList, hsucc, createEqList]

/-- The entry's equation is written in full exactly when no arc leads to the entry. -/
theorem blockLine_entry_iff (hne : entry ≠ exit) :
    ⟨(1, .s) :: createTargetList S entry, .eq, 0⟩ = blockLine S entry exit entry ↔
      S.pred entry = [] := by
  rw [blockLine, if_pos rfl, if_neg hne, Line.mk.injEq]
  constructor
  · rintro ⟨h, -, -⟩
    have := congrArg List.length h
    simp only [createIncomingList, createEqList, List.length_cons, List.length_append,
      List.length_map, List.length_nil] at this
    exact List.length_eq_zero_iff.1 (by omega)
  · intro h
    simp [createIncomingList, createEqList, h]

theorem IsCfg.entry_mem (h : IsCfg S entry exit) : entry ∈ S.nodes := h.wf.root_mem entry h.root

/-- A graph with two blocks has arcs. -/
theorem IsCfg.arcs_ne_nil (h : IsCfg S entry exit) (hne : entry ≠ exit) : S.arcs ≠ [] := by
  intro hnil
  rcases (h.coreach entry h.entry_mem).cases_head with heq | ⟨v, ⟨a, ha, -⟩, -⟩
  · exact hne heq
  · have := ((h.wf.mem_succ entry a).1 ha).1
    simp [hnil] at this

/-- The counts of an execution satisfy the bounds of the back-edges. -/
theorem createBackedgesEq_holds {backedge : Id → Bool} {numIteration : Id → ℤ} {l : List Id}
    (hl : Execution S entry exit backedge numIteration l) {σ : Var → ℤ} (hσ : PathCounts S l σ)
    {backLines : List Line} (hback : createBackedgesEq S backedge numIteration = .ok backLines) :
    ∀ line ∈ backLines, line.Holds σ := by
  rw [createBackedgesEq] at hback
  split_ifs at hback
  obtain rfl := Except.ok.inj hback
  intro line hline
  obtain ⟨a, ha, rfl⟩ := List.mem_map.1 hline
  obtain ⟨ha, hflag⟩ := List.mem_filter.1 ha
  show eval σ [(1, getArcName S a)] ≤ numIteration a
  simpa [eval, hσ.arc a ha] using hl.bounded a ha hflag

/-- Under the condition the constraint system is the one of the blocks. `evs` are the events of the
traversal behind `topo_list`. -/
theorem IsCfg.exists_eqsMeet (h : IsCfg S entry exit) (hcond : EqsCondition S entry exit)
    (numIteration : Id → ℤ) {evs : List (Event Id Id)} {V : Set Id}
    (hscan : Scan S.succ S.arcSucc entry [entry] {entry} (S.succ entry) evs V) {M : Marks}
    (htopo : M.topoList = (postorder entry evs).reverse) :
    ∃ nodeLines backLines, EqsMeet S entry exit numIteration M nodeLines backLines := by
  have hmem : ∀ v ∈ S.nodes, v ∈ postorder entry evs := fun v hv ↦
    hscan.postorder_perm.mem_iff.2 (hscan.mem_preorder_iff_reach.2 (h.reach v hv))
  have hnodup := hscan.nodup_postorder
  have hhead := hscan.head?_postorder_iff.2 hcond.greedy
  rw [postorder] at hhead hnodup
  -- the exit is the first block that the traversal leaves, and so the last of the list
  cases hleft : left evs with
  | nil =>
    rw [hleft] at hhead
    exact absurd (by simpa using hhead) hcond.ne
  | cons w rest =>
    rw [hleft] at hhead hnodup
    obtain rfl : w = exit := by simpa using hhead
    have htopo' : M.topoList = entry :: (rest.reverse ++ [w]) := by
      rw [htopo, postorder, hleft]
      simp
    have hinner : ∀ v ∈ rest.reverse, blockLine S entry w v = innerLine S v := by
      intro v hv
      have hv' : v ∈ rest := List.mem_reverse.1 hv
      refine blockLine_inner ?_ ?_
      · rintro rfl
        exact (List.nodup_append.1 (List.nodup_cons.1 hnodup).2).2.2 v hv' v (by simp) rfl
      · rintro rfl
        simp [hv'] at hnodup
    -- the first line of the code is the one of the entry, since no arc leads there
    have hlines : ⟨[(1, .s)], .eq, 1⟩ :: ⟨(1, .s) :: createTargetList S entry, .eq, 0⟩ ::
        (rest.reverse.map (innerLine S) ++
        [⟨createIncomingList S w ++ [(-1, .t)], .eq, 0⟩, ⟨[(1, .t)], .eq, 1⟩]) =
        ⟨[(1, .s)], .eq, 1⟩ :: M.topoList.map (blockLine S entry w) ++ [⟨[(1, .t)], .eq, 1⟩] := by
      rw [htopo', List.map_cons, List.map_append, List.map_congr_left hinner,
        (blockLine_entry_iff hcond.ne).2 hcond.pred_entry]
      simp [blockLine_exit h.succ_exit hcond.ne.symm]
    have hback : createBackedgesEq S M.backedge numIteration =
        .ok ((S.arcs.filter M.backedge).map fun arc ↦
          ⟨[(1, getArcName S arc)], .le, numIteration arc⟩) := by
      rw [createBackedgesEq, if_neg (h.arcs_ne_nil hcond.ne)]
      rfl
    refine ⟨_, _, ?_, hback, ?_, hlines, fun v hv ↦ ?_, ?_, ?_⟩
    · rw [htopo']
      exact createNodesEq_cons_append entry rest.reverse w
    · intro a ha b hb heq
      obtain ⟨hpred, hsucc⟩ := Var.d.inj heq
      exact hcond.ends_injective a ha b hb hpred hsucc
    · rw [htopo, List.mem_reverse]
      exact hmem v hv
    · rw [htopo', ← List.cons_append, List.getLast?_append]
      rfl
    · intro l hl σ hσ line hline
      rcases List.mem_append.1 hline with hline | hline
      · rw [hlines] at hline
        simp only [List.cons_append, List.mem_cons, List.mem_append, List.mem_map,
          List.not_mem_nil, or_false] at hline
        rcases hline with rfl | ⟨v, -, rfl⟩ | rfl
        · show eval σ [(1, .s)] = 1
          simp [eval, hσ.s]
        · exact blockLine_holds h.wf hl.walk hσ v
        · show eval σ [(1, .t)] = 1
          simp [eval, hσ.t]
      · exact createBackedgesEq_holds hl hσ hback line hline

/-- **When the constraint system is the one of the blocks.** -/
theorem eqsMeet_iff (h : IsCfg S entry exit) (numIteration : Id → ℤ) :
    (∃ M nodeLines backLines, ilpInit S = .ok M ∧
      EqsMeet S entry exit numIteration M nodeLines backLines) ↔ EqsCondition S entry exit := by
  obtain ⟨evs, V, M, hscan, hinit, htopo, -⟩ := ilpInit_spec h.wf h.root
  constructor
  · rintro ⟨M', nodeLines, backLines, hM', hmeet⟩
    obtain rfl := Except.ok.inj (hinit.symm.trans hM')
    have hnodup := hscan.nodup_postorder
    have hnodes := hmeet.nodes_eq
    have hlast := hmeet.last
    have hlines := hmeet.lines
    rw [htopo, postorder] at hnodes hlines
    rw [htopo, List.getLast?_reverse] at hlast
    rw [postorder] at hnodup hlast
    cases hleft : left evs with
    | nil =>
      -- a single block: the loop runs off the list
      rw [hleft] at hnodes
      cases hnodes
    | cons w rest =>
      simp only [hleft, List.cons_append, List.reverse_cons, List.reverse_append,
        List.reverse_nil, List.nil_append] at hnodes hlines
      rw [hleft] at hnodup hlast
      obtain rfl : w = exit := by simpa using hlast
      have hne : entry ≠ w := by
        rintro rfl
        simp at hnodup
      refine ⟨hne, hscan.head?_postorder_iff.1 (by rw [postorder, hleft]; rfl), ?_, ?_⟩
      · rw [createNodesEq_cons_append] at hnodes
        rw [← Except.ok.inj hnodes] at hlines
        simp only [List.map_cons, List.cons_append, List.cons.injEq] at hlines
        exact (blockLine_entry_iff hne).1 hlines.2.1
      · intro a ha b hb hpred hsucc
        exact hmeet.arc_injective a ha b hb (by rw [getArcName, getArcName, hpred, hsucc])
  · intro hcond
    obtain ⟨nodeLines, backLines, hmeet⟩ := h.exists_eqsMeet hcond numIteration hscan htopo
    exact ⟨M, nodeLines, backLines, hinit, hmeet⟩

/-- Block 2 leaves the loop of 2 and 3 along its first flow. -/
def exitFirst : Shape := createCbGraph [(1, [2]), (2, [4, 3]), (3, [2]), (4, [])]

/-- The same blocks with the flows of block 2 the other way round. -/
def bodyFirst : Shape := createCbGraph [(1, [2]), (2, [3, 4]), (3, [2]), (4, [])]

theorem exitFirst_isCfg : IsCfg exitFirst 1 4 := by
  have h₁₂ : exitFirst.Reach 1 2 := .single ⟨1, by decide, rfl⟩
  have h₂₄ : exitFirst.Reach 2 4 := .single ⟨2, by decide, rfl⟩
  have h₂₃ : exitFirst.Reach 2 3 := .single ⟨3, by decide, rfl⟩
  have h₃₂ : exitFirst.Reach 3 2 := .single ⟨4, by decide, rfl⟩
  refine ⟨createCbGraph_wf (by decide) (by decide), rfl, rfl, ?_, ?_⟩
  · exact List.forall_iff_forall_mem.1 ⟨.refl, h₁₂, h₁₂.trans h₂₃, h₁₂.trans h₂₄⟩
  · exact List.forall_iff_forall_mem.1 ⟨h₁₂.trans h₂₄, h₂₄, h₃₂.trans h₂₄, .refl⟩

theorem eqsMeet_exitFirst : ∃ M nodeLines backLines, ilpInit exitFirst = .ok M ∧
    EqsMeet exitFirst 1 4 (fun _ ↦ 10) M nodeLines backLines :=
  (eqsMeet_iff exitFirst_isCfg fun _ ↦ 10).2
    ⟨by decide, .step (e := 1) rfl (.step (e := 2) rfl (.stop rfl)), rfl, by decide⟩

theorem bodyFirst_isCfg : IsCfg bodyFirst 1 4 := by
  have h₁₂ : bodyFirst.Reach 1 2 := .single ⟨1, by decide, rfl⟩
  have h₂₃ : bodyFirst.Reach 2 3 := .single ⟨2, by decide, rfl⟩
  have h₂₄ : bodyFirst.Reach 2 4 := .single ⟨3, by decide, rfl⟩
  have h₃₂ : bodyFirst.Reach 3 2 := .single ⟨4, by decide, rfl⟩
  refine ⟨createCbGraph_wf (by decide) (by decide), rfl, rfl, ?_, ?_⟩
  · exact List.forall_iff_forall_mem.1 ⟨.refl, h₁₂, h₁₂.trans h₂₃, h₁₂.trans h₂₄⟩
  · exact List.forall_iff_forall_mem.1 ⟨h₁₂.trans h₂₄, h₂₄, h₃₂.trans h₂₄, .refl⟩

/-- The loop body is left before the exit, and takes the last place in `topo_list`: the equation
written for the exit says that the exit is never reached. -/
theorem bodyFirst_violates : IsCfg bodyFirst 1 4 ∧
    ∃ M nodeLines, ilpInit bodyFirst = .ok M ∧ createNodesEq bodyFirst M.topoList = .ok nodeLines ∧
      Execution bodyFirst 1 4 M.backedge (fun _ ↦ 10) [1, 3] ∧
      PathCounts bodyFirst [1, 3] (countsOf bodyFirst [1, 3]) ∧
      ∃ line ∈ nodeLines, ¬line.Holds (countsOf bodyFirst [1, 3]) := by
  refine ⟨bodyFirst_isCfg, _, _, rfl, rfl, ⟨?_, ?_⟩, pathCounts_countsOf (by decide) _, ?_⟩
  · exact .cons (by decide) (.cons (by decide) (.nil 4))
  · decide
  · exact ⟨⟨[(1, .d 2 4)], .eq, 0⟩, by decide, by decide⟩

end OpenImpact.Wcet
