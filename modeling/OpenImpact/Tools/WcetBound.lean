import OpenImpact.Tools.WcetEqs
import Mathlib.Algebra.Order.Ring.Int
import Mathlib.Data.Int.LeastGreatest
import Mathlib.Order.Bounds.Basic

/-!
# The bound of the WCET analysis

The bound is the maximum of the objective over the feasible points. That there is one when the bounds of the
back-edges are kept is `exists_outflow_le`: an arc that is not a back-edge carries at most what flows into its
source, and these arcs form no cycle. `feasible_iff` says what the written lines mean, for any graph: the
equation of the first block of `topo_list` leaves out what flows in, that of the last one what flows out, so
that nothing can flow into the entry (`Solution.inflow_entry`).
-/

namespace OpenImpact.Wcet

open OpenImpact.Graph Foundation.Dfs

/-- The sum of the weights of the arcs a path crosses. -/
def weightOf (wcetWeight : Id → ℤ) (l : List Id) : ℤ := (l.map wcetWeight).sum

variable {S : Shape} {entry exit : Id}

/-! ### The objective -/

theorem eval_objective {σ : Var → ℤ} (wcetWeight : Id → ℤ) (arcs : List Id) :
    eval σ ((arcs.map fun arc ↦
        (if wcetWeight arc > 0 then wcetWeight arc else 0, getArcName S arc)) ++ [(1, .t)]) =
      (arcs.map fun arc ↦ max (wcetWeight arc) 0 * σ (getArcName S arc)).sum + σ .t := by
  have hmax : ∀ x : ℤ, (if x > 0 then x else 0) = max x 0 := fun x ↦ by split_ifs <;> omega
  simp only [eval, List.map_append, List.map_map, List.sum_append, List.map_cons, List.map_nil,
    List.sum_cons, List.sum_nil, one_mul, add_zero, hmax]
  rfl

/-- The counts of a path give the objective at least the weight of the path. -/
theorem weightOf_le (hS : S.WF) (wcetWeight : Id → ℤ) {l : List Id} (hl : ∀ a ∈ l, a ∈ S.arcs) :
    weightOf wcetWeight l ≤
      (S.arcs.map fun a ↦ max (wcetWeight a) 0 * ((l.count a : ℕ) : ℤ)).sum := by
  induction l with
  | nil => simp [weightOf]
  | cons a l ih =>
    rw [List.forall_mem_cons] at hl
    have hcount : S.arcs.count a = 1 := List.count_eq_one_of_mem hS.nodup_arcs hl.1
    have := ih hl.2
    rw [sum_mul_count_cons, hcount]
    simp only [weightOf, List.map_cons, List.sum_cons] at this ⊢
    have := le_max_left (wcetWeight a) 0
    omega

/-! ### The maximum -/

/-- Sums of bounded terms are bounded. -/
theorem exists_sum_le {ι : Type} {F : (Var → ℤ) → Prop} {f : ι → (Var → ℤ) → ℤ} {L : List ι}
    (h : ∀ x ∈ L, ∃ C, ∀ σ, F σ → f x σ ≤ C) : ∃ C, ∀ σ, F σ → (L.map (f · σ)).sum ≤ C := by
  induction L with
  | nil => exact ⟨0, fun _ _ ↦ le_rfl⟩
  | cons x L ih =>
    rw [List.forall_mem_cons] at h
    obtain ⟨C, hC⟩ := h.1
    obtain ⟨D, hD⟩ := ih h.2
    refine ⟨C + D, fun σ hσ ↦ ?_⟩
    rw [List.map_cons, List.sum_cons]
    exact add_le_add (hC σ hσ) (hD σ hσ)

theorem le_sum_of_mem {L : List ℤ} (hL : ∀ x ∈ L, 0 ≤ x) {x : ℤ} (hx : x ∈ L) : x ≤ L.sum := by
  induction L with
  | nil => simp at hx
  | cons y L ih =>
    rw [List.forall_mem_cons] at hL
    have hnonneg : 0 ≤ L.sum := List.sum_nonneg hL.2
    rw [List.sum_cons]
    rcases List.mem_cons.1 hx with rfl | hx
    · omega
    · have := ih hL.2 hx
      omega

/-- What flows into a block. -/
def inflow (S : Shape) (σ : Var → ℤ) (v : Id) : ℤ :=
  ((S.pred v).map fun a ↦ σ (getArcName S a)).sum

/-- What flows out of a block. -/
def outflow (S : Shape) (σ : Var → ℤ) (v : Id) : ℤ :=
  ((S.succ v).map fun a ↦ σ (getArcName S a)).sum

/-- The points that satisfy the written constraints, with the equations read as those of the
blocks. -/
structure Flow (S : Shape) (entry exit : Id) (backedge : Id → Bool) (numIteration : Id → ℤ)
    (σ : Var → ℤ) : Prop where
  nonneg : ∀ a ∈ S.arcs, 0 ≤ σ (getArcName S a)
  s : σ .s = 1
  t : σ .t = 1
  block : ∀ v ∈ S.nodes, (blockLine S entry exit v).Holds σ
  bound : ∀ a ∈ S.arcs, backedge a = true → σ (getArcName S a) ≤ numIteration a

section Bounded

variable (hS : S.WF) {backedge : Id → Bool} {numIteration : Id → ℤ}

/-- What flows out of a block flows in, but for one unit at the entry. -/
theorem Flow.outflow_le {σ : Var → ℤ} (h : Flow S entry exit backedge numIteration σ) {v : Id}
    (hv : v ∈ S.nodes) :
    outflow S σ v ≤ 1 + ((S.pred v).map fun a ↦ σ (getArcName S a)).sum := by
  have hblock : eval σ (blockLine S entry exit v).terms = 0 := h.block v hv
  have hs : eval σ (if v = entry then [(1, .s)] else []) ≤ 1 := by
    split_ifs <;> simp [eval, h.s]
  have ht : eval σ (if v = exit then [(-1, .t)] else []) ≤ 0 := by
    split_ifs <;> simp [eval, h.t]
  simp only [blockLine, eval_append, createIncomingList, createTargetList,
    eval_createEqList] at hblock
  rw [outflow]
  omega

include hS in
theorem Flow.le_outflow {σ : Var → ℤ} (h : Flow S entry exit backedge numIteration σ) {a : Id}
    (ha : a ∈ S.arcs) : σ (getArcName S a) ≤ outflow S σ (S.arcPred a) := by
  refine le_sum_of_mem (fun x hx ↦ ?_)
    (List.mem_map.2 ⟨a, (hS.mem_succ _ a).2 ⟨ha, rfl⟩, rfl⟩)
  obtain ⟨b, hb, rfl⟩ := List.mem_map.1 hx
  exact h.nonneg b ((hS.mem_succ _ b).1 hb).1

include hS in
/-- **The flow through a block is bounded**, by induction along the topological order of the arcs that
are not back arcs. -/
theorem exists_outflow_le {evs : List (Event Id Id)} {V : Set Id}
    (hscan : Scan S.succ S.arcSucc entry [entry] {entry} (S.succ entry) evs V)
    (hreach : ∀ v ∈ S.nodes, S.Reach entry v)
    (hback : ∀ a ∈ S.arcs, backedge a = true ↔ ∃ x, .back x a ∈ evs) (n : ℕ) {v : Id}
    (hv : v ∈ S.nodes) (hn : (postorder entry evs).length ≤ n + (postorder entry evs).idxOf v) :
    ∃ C, ∀ σ, Flow S entry exit backedge numIteration σ → outflow S σ v ≤ C := by
  have hmem : ∀ v ∈ S.nodes, v ∈ postorder entry evs := fun v hv ↦
    hscan.postorder_perm.mem_iff.2 (hscan.mem_preorder_iff_reach.2 (hreach v hv))
  induction n generalizing v with
  | zero =>
    have := List.idxOf_lt_length_of_mem (hmem v hv)
    omega
  | succ n ih =>
    have hpred : ∀ a ∈ S.pred v, ∃ C, ∀ σ, Flow S entry exit backedge numIteration σ →
        σ (getArcName S a) ≤ C := by
      intro a ha
      obtain ⟨harc, rfl⟩ := (hS.mem_pred v a).1 ha
      by_cases hflag : backedge a = true
      · exact ⟨numIteration a, fun σ hσ ↦ hσ.bound a harc hflag⟩
      · have hsrc := hS.arcPred_mem a harc
        have hsub := (hscan.sublist_postorder_of_arc
          (hscan.mem_preorder_iff_reach.2 (hreach _ hsrc))
          ((hS.mem_succ _ a).2 ⟨harc, rfl⟩)).resolve_left
            fun hb ↦ hflag ((hback a harc).2 ⟨_, hb⟩)
        have hlt := idxOf_lt_of_sublist hscan.nodup_postorder hsub
        obtain ⟨C, hC⟩ := ih hsrc (by omega)
        exact ⟨C, fun σ hσ ↦ (hσ.le_outflow hS harc).trans (hC σ hσ)⟩
    obtain ⟨C, hC⟩ := exists_sum_le (f := fun a σ ↦ σ (getArcName S a)) hpred
    exact ⟨1 + C, fun σ hσ ↦ (hσ.outflow_le hv).trans (add_le_add_right (hC σ hσ) 1)⟩

end Bounded

/-! ### The written equations -/

/-- What the lines of `ILP_create_nodes_eq` and `ILP_create_backedges_eq` say of a point that is not negative.
`topo` is `topo_list`. The equation of its first node leaves out what flows in, and that of its last one what
flows out. -/
structure Solution (S : Shape) (entry : Id) (topo : List Id) (σ : Var → ℤ) : Prop where
  nonneg : ∀ a ∈ S.arcs, 0 ≤ σ (getArcName S a)
  s : σ .s = 1
  t : σ .t = 1
  entry : outflow S σ entry = 1
  inner : ∀ v ∈ topo.tail.dropLast, inflow S σ v = outflow S σ v
  last : ∀ v ∈ topo.getLast?, inflow S σ v = 1

theorem eval_createIncomingList (σ : Var → ℤ) (v : Id) :
    eval σ (createIncomingList S v) = inflow S σ v := by
  rw [createIncomingList, eval_createEqList, one_mul, inflow]

theorem eval_createTargetList (σ : Var → ℤ) (v : Id) :
    eval σ (createTargetList S v) = -outflow S σ v := by
  rw [createTargetList, eval_createEqList, neg_one_mul, outflow]

theorem blockLine_holds_iff {σ : Var → ℤ} (hs : σ .s = 1) (ht : σ .t = 1) (v : Id) :
    (blockLine S entry exit v).Holds σ ↔
      (if v = entry then 1 else 0) + inflow S σ v = outflow S σ v + if v = exit then 1 else 0 := by
  have hs' : eval σ (if v = entry then [(1, .s)] else []) = if v = entry then 1 else 0 := by
    split_ifs <;> simp [eval, hs]
  have ht' : eval σ (if v = exit then [(-1, .t)] else []) = if v = exit then -1 else 0 := by
    split_ifs <;> simp [eval, ht]
  show eval σ _ = 0 ↔ _
  simp only [blockLine, eval_append, eval_createIncomingList, eval_createTargetList, hs', ht']
  split_ifs <;> omega

/-- **The node equations**, for a list of at least two nodes. -/
theorem holds_nodeLines_iff {first last : Id} {mid : List Id} {σ : Var → ℤ} :
    (∀ line ∈ ⟨[(1, .s)], .eq, 1⟩ :: ⟨(1, .s) :: createTargetList S first, .eq, 0⟩ :: (mid.map (innerLine S) ++
      [⟨createIncomingList S last ++ [(-1, .t)], .eq, 0⟩, ⟨[(1, .t)], .eq, 1⟩]), Line.Holds σ line) ↔
    σ .s = 1 ∧ σ .t = 1 ∧ outflow S σ first = 1 ∧ (∀ v ∈ mid, inflow S σ v = outflow S σ v) ∧
      inflow S σ last = 1 := by
  have hfirst : eval σ ((1, .s) :: createTargetList S first) = σ .s - outflow S σ first := by
    rw [← List.singleton_append, eval_append, eval_createTargetList]
    simp [eval, sub_eq_add_neg]
  have hinner (v : Id) : (innerLine S v).Holds σ ↔ inflow S σ v = outflow S σ v := by
    show eval σ (createIncomingList S v ++ createTargetList S v) = 0 ↔ _
    rw [eval_append, eval_createIncomingList, eval_createTargetList]
    omega
  have hlast : eval σ (createIncomingList S last ++ [(-1, .t)]) = inflow S σ last - σ .t := by
    rw [eval_append, eval_createIncomingList]
    simp [eval, sub_eq_add_neg]
  have hholds (terms : List (ℤ × Var)) (rhs : ℤ) : (⟨terms, .eq, rhs⟩ : Line).Holds σ ↔ eval σ terms = rhs := .rfl
  simp only [List.forall_mem_cons, List.forall_mem_append, List.forall_mem_map, hinner, hholds, hfirst, hlast,
    List.not_mem_nil, false_imp_iff, implies_true, and_true]
  simp only [eval, List.map_cons, List.map_nil, List.sum_cons, List.sum_nil, one_mul, add_zero]
  constructor
  · rintro ⟨hs, hout, hmid, hin, ht⟩
    exact ⟨hs, ht, by omega, hmid, by omega⟩
  · rintro ⟨hs, ht, hout, hmid, hin⟩
    exact ⟨hs, by omega, hmid, by omega, ht⟩

/-- **The points that satisfy the node equations** are the solutions. -/
theorem solution_iff (harcs : S.arcs ≠ []) {first last : Id} {mid : List Id} {nodeLines : List Line}
    {generals : List Var} (hnodes : createNodesEq S (first :: (mid ++ [last])) = .ok nodeLines)
    (hgen : createArcsList S = .ok generals) {σ : Var → ℤ} :
    Feasible generals nodeLines σ ↔ Solution S first (first :: (mid ++ [last])) σ := by
  rw [createNodesEq_cons_append] at hnodes
  rw [createArcsList, if_neg harcs] at hgen
  obtain rfl := Except.ok.inj hnodes
  obtain rfl := Except.ok.inj hgen
  have hnonneg : (∀ x ∈ Var.s :: S.arcs.map (getArcName S) ++ [Var.t], 0 ≤ σ x) ↔
      0 ≤ σ .s ∧ (∀ a ∈ S.arcs, 0 ≤ σ (getArcName S a)) ∧ 0 ≤ σ .t := by
    simp [or_imp, forall_and]
  constructor
  · intro hσ
    obtain ⟨-, harc, -⟩ := hnonneg.1 hσ.nonneg
    obtain ⟨hs, ht, hout, hmid, hin⟩ := holds_nodeLines_iff.1 hσ.holds
    refine ⟨harc, hs, ht, hout, ?_, ?_⟩
    · rw [List.tail_cons, List.dropLast_concat]
      exact hmid
    · rw [← List.cons_append, List.getLast?_append]
      rintro v ⟨⟩
      exact hin
  · intro hσ
    refine ⟨hnonneg.2 ⟨by rw [hσ.s]; decide, hσ.nonneg, by rw [hσ.t]; decide⟩,
      holds_nodeLines_iff.2 ⟨hσ.s, hσ.t, hσ.entry, ?_, ?_⟩⟩
    · have hinner := hσ.inner
      rwa [List.tail_cons, List.dropLast_concat] at hinner
    · refine hσ.last last ?_
      rw [← List.cons_append, List.getLast?_append]
      rfl

/-- **The points that satisfy all constraints** also keep the bounds of the back-edges. -/
theorem feasible_iff (harcs : S.arcs ≠ []) {backedge : Id → Bool} {numIteration : Id → ℤ} {first last : Id}
    {mid : List Id} {nodeLines backLines : List Line} {generals : List Var}
    (hnodes : createNodesEq S (first :: (mid ++ [last])) = .ok nodeLines)
    (hback : createBackedgesEq S backedge numIteration = .ok backLines) (hgen : createArcsList S = .ok generals)
    {σ : Var → ℤ} :
    Feasible generals (nodeLines ++ backLines) σ ↔ Solution S first (first :: (mid ++ [last])) σ ∧
      ∀ a ∈ S.arcs, backedge a = true → σ (getArcName S a) ≤ numIteration a := by
  have hsplit : Feasible generals (nodeLines ++ backLines) σ ↔
      Feasible generals nodeLines σ ∧ ∀ line ∈ backLines, line.Holds σ :=
    ⟨fun h ↦ ⟨⟨h.nonneg, (List.forall_mem_append.1 h.holds).1⟩, (List.forall_mem_append.1 h.holds).2⟩,
      fun h ↦ ⟨h.1.nonneg, List.forall_mem_append.2 ⟨h.1.holds, h.2⟩⟩⟩
  rw [hsplit, solution_iff harcs hnodes hgen]
  rw [createBackedgesEq, if_neg harcs] at hback
  obtain rfl := Except.ok.inj hback
  have hholds (x : Var) (rhs : ℤ) : (⟨[(1, x)], .le, rhs⟩ : Line).Holds σ ↔ σ x ≤ rhs := by
    show eval σ [(1, x)] ≤ rhs ↔ _
    simp [eval]
  simp only [List.forall_mem_map, hholds, List.mem_filter, and_imp]

/-- What flows in, over all blocks, flows out. -/
theorem sum_inflow_eq_sum_outflow (hS : S.WF) (σ : Var → ℤ) :
    (S.nodes.map (inflow S σ)).sum = (S.nodes.map (outflow S σ)).sum := by
  have hsum (adj : Id → List Id) (f : Id → ℤ) :
      (S.nodes.map fun v ↦ ((adj v).map f).sum).sum = ((S.nodes.flatMap adj).map f).sum := by
    induction S.nodes with
    | nil => rfl
    | cons v l ih => rw [List.map_cons, List.sum_cons, ih, List.flatMap_cons, List.map_append, List.sum_append]
  have hperm (adj : Id → List Id) (hadj : ∀ v, (adj v).Nodup) (source : Id → Id)
      (hmem : ∀ v a, a ∈ adj v ↔ a ∈ S.arcs ∧ source a = v) (hsource : ∀ a ∈ S.arcs, source a ∈ S.nodes) :
      (S.nodes.flatMap adj).Perm S.arcs := by
    refine (List.perm_ext_iff_of_nodup (List.nodup_flatMap.2 ⟨fun v _ ↦ hadj v, ?_⟩) hS.nodup_arcs).2 fun a ↦ ?_
    · refine hS.nodup_nodes.imp fun {v w} hne a ha hb ↦ hne ?_
      rw [← ((hmem v a).1 ha).2, ((hmem w a).1 hb).2]
    · rw [List.mem_flatMap]
      constructor
      · rintro ⟨v, -, ha⟩
        exact ((hmem v a).1 ha).1
      · exact fun ha ↦ ⟨source a, hsource a ha, (hmem _ a).2 ⟨ha, rfl⟩⟩
  have hin := hperm S.pred hS.nodup_pred S.arcSucc hS.mem_pred hS.arcSucc_mem
  have hout := hperm S.succ hS.nodup_succ S.arcPred hS.mem_succ hS.arcPred_mem
  calc (S.nodes.map (inflow S σ)).sum
      = ((S.nodes.flatMap S.pred).map fun a ↦ σ (getArcName S a)).sum := hsum S.pred _
    _ = ((S.nodes.flatMap S.succ).map fun a ↦ σ (getArcName S a)).sum :=
      ((hin.trans hout.symm).map _).sum_eq
    _ = (S.nodes.map (outflow S σ)).sum := (hsum S.succ _).symm

/-- **Nothing flows into the entry** when the exit is last in the list. -/
theorem Solution.inflow_entry (h : IsCfg S entry exit) {mid : List Id} {σ : Var → ℤ}
    (hσ : Solution S entry (entry :: (mid ++ [exit])) σ) (hperm : S.nodes.Perm (entry :: (mid ++ [exit]))) :
    inflow S σ entry = 0 := by
  have hsum := sum_inflow_eq_sum_outflow h.wf σ
  have hexit : outflow S σ exit = 0 := by
    rw [outflow, h.succ_exit]
    rfl
  have hinner := hσ.inner
  have hlast := hσ.last exit (by rw [← List.cons_append, List.getLast?_append]; rfl)
  rw [List.tail_cons, List.dropLast_concat] at hinner
  rw [(hperm.map _).sum_eq, (hperm.map (outflow S σ)).sum_eq] at hsum
  simp only [List.map_cons, List.map_append, List.map_nil, List.sum_cons, List.sum_append, List.sum_nil, hσ.entry,
    hlast, hexit, List.map_congr_left hinner] at hsum
  omega

/-- No arc carries anything into a block without inflow. -/
theorem Solution.eq_zero_of_inflow (hS : S.WF) {topo : List Id} {σ : Var → ℤ} {v : Id}
    (hσ : Solution S entry topo σ) (hin : inflow S σ v = 0) {a : Id} (ha : a ∈ S.arcs) (hsucc : S.arcSucc a = v) :
    σ (getArcName S a) = 0 := by
  refine le_antisymm ?_ (hσ.nonneg a ha)
  rw [← hin, inflow]
  refine le_sum_of_mem (fun x hx ↦ ?_) (List.mem_map.2 ⟨a, (hS.mem_pred v a).2 ⟨ha, hsucc⟩, rfl⟩)
  obtain ⟨b, hb, rfl⟩ := List.mem_map.1 hx
  exact hσ.nonneg b ((hS.mem_pred v b).1 hb).1

theorem sum_eq_zero_iff_of_nonneg {L : List Id} {x : Id → ℤ} (hx : ∀ b ∈ L, 0 ≤ x b) :
    (L.map x).sum = 0 ↔ ∀ b ∈ L, x b = 0 := by
  constructor
  · intro h b hb
    have hle := le_sum_of_mem (L := L.map x) (by simpa using hx) (List.mem_map_of_mem hb)
    have := hx b hb
    omega
  · intro h
    rw [List.map_congr_left h]
    simp

/-- The solutions are flows through the blocks when the exit is last in the list. -/
theorem Solution.flow (h : IsCfg S entry exit) {backedge : Id → Bool} {numIteration : Id → ℤ} {mid : List Id}
    {σ : Var → ℤ} (hσ : Solution S entry (entry :: (mid ++ [exit])) σ) (hperm : S.nodes.Perm (entry :: (mid ++ [exit])))
    (hbounds : ∀ a ∈ S.arcs, backedge a = true → σ (getArcName S a) ≤ numIteration a) :
    Flow S entry exit backedge numIteration σ where
  nonneg := hσ.nonneg
  s := hσ.s
  t := hσ.t
  bound := hbounds
  block v hv := by
    have hnodup := hperm.nodup_iff.1 h.wf.nodup_nodes
    simp only [List.nodup_cons, List.mem_append, List.mem_singleton, not_or, List.nodup_append] at hnodup
    obtain ⟨⟨hmid, hne⟩, -, -, hdisj⟩ := hnodup
    rw [blockLine_holds_iff hσ.s hσ.t]
    rcases List.mem_cons.1 (hperm.mem_iff.1 hv) with rfl | hv
    · rw [if_pos rfl, if_neg hne, hσ.inflow_entry h hperm, hσ.entry]
    rcases List.mem_append.1 hv with hv | hv
    · have hinner := hσ.inner v (by rwa [List.tail_cons, List.dropLast_concat])
      rw [if_neg fun heq : v = entry ↦ hmid (heq ▸ hv), if_neg (hdisj v hv exit rfl)]
      omega
    · obtain rfl := List.mem_singleton.1 hv
      have hlast := hσ.last v (by rw [← List.cons_append, List.getLast?_append]; rfl)
      rw [if_pos rfl, if_neg (Ne.symm hne), hlast, outflow, h.succ_exit]
      rfl

end OpenImpact.Wcet
