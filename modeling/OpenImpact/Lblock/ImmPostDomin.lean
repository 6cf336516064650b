import OpenImpact.Library.GraphPostDom

/-!
# The end blocks of regions

`get_imm_post_domin` takes the first node of `topo_list` that post-dominates the given one, and trace
formation ends the hammock of a block there. That node is the immediate post-dominator of every node
exactly when the traversal leaves the immediate post-dominators in the order of the post-dominator tree
(`immPostDominRight_iff`). A loop of two blocks that are left for the header breaks the order: the header
comes first in `topo_list` and post-dominates them both.

The theorem is about a graph between an entry that reaches every block and a stop node that every
block reaches, after the sort and the two analyses that the former runs. It compares the query with
`Graph_imm_post_dominator` too, which takes the post-dominator that comes last before the node: the
two agree everywhere only where both are right. The ids are those of control blocks and so not
negative; what the former does with the blocks between the two ends is left out.
-/

namespace OpenImpact.Lblock

open OpenImpact.Graph Foundation Foundation.Dfs

/-- `get_imm_post_domin`. -/
def getImmPostDomin (postDom : Id → Option (Finset Id)) (allNodes : List Id) (node : Id) : Option Id :=
  allNodes.find? fun subNode ↦ node ≠ subNode ∧ setIn (postDom node) subNode

/-- The loop in `trace_formation_SHARIF4` that fills in the `chock_end_cb` fields. -/
def chockEndCbs (R : Results) (nodes : List Id) (chockEndCb : Id → Option Id) : Id → Option Id :=
  nodes.foldl (fun chockEndCb node ↦
    match getImmPostDomin R.postDom R.topoList node with
    | some tem => Function.update chockEndCb node (some tem)
    | none => chockEndCb) chockEndCb

/-- The immediate post-dominator of each node, and `NULL` for the exit. -/
def ImmPostDominRight (S : Shape) (stop : Id) (R : Results) : Prop :=
  ∀ v ∈ S.nodes, (getImmPostDomin R.postDom R.topoList v = none ↔ v = stop) ∧
    ∀ p, getImmPostDomin R.postDom R.topoList v = some p → IsIpdom S.Step stop p v

/-- The depth-first traversal leaves the immediate post-dominator of an immediate post-dominator first. -/
def PostDomsInOrder (S : Shape) (r stop : Id) : Prop :=
  ∃ evs V, Scan S.succ S.arcSucc r [r] {r} (S.succ r) evs V ∧
    ∀ v ∈ S.nodes, ∀ p q, IsIpdom S.Step stop p v → IsIpdom S.Step stop q p →
      (postorder r evs).idxOf q < (postorder r evs).idxOf p

variable {S : Shape} {r stop : Id} {evs : List (Event Id Id)} {V : Set Id}
  {postDom : Id → Option (Finset Id)} {l : List Id} {v p q : Id}

/-! ### What the scan finds -/

/-- The first strict post-dominator in the list. -/
theorem getImmPostDomin_eq_some_iff :
    getImmPostDomin postDom l v = some p ↔ v ≠ p ∧ setIn (postDom v) p ∧
      ∃ as bs, l = as ++ p :: bs ∧ ∀ q ∈ as, v ≠ q → ¬setIn (postDom v) q := by
  simp only [getImmPostDomin, List.find?_eq_some_iff_append, decide_eq_true_eq, Bool.not_eq_true',
    decide_eq_false_iff_not, not_and, and_assoc]

theorem getImmPostDomin_eq_none_iff :
    getImmPostDomin postDom l v = none ↔ ∀ q ∈ l, v ≠ q → ¬setIn (postDom v) q := by
  simp only [getImmPostDomin, List.find?_eq_none, decide_eq_true_eq, not_and]

/-- What stands behind in the reversed list is left first. -/
theorem idxOf_lt_of_reverse {as bs : List Id} (hnodup : l.Nodup) (hl : l.reverse = as ++ p :: bs)
    (hq : q ∈ bs) : l.idxOf q < l.idxOf p := by
  refine idxOf_lt_of_sublist hnodup ?_
  rw [← List.reverse_sublist, hl]
  exact ((List.singleton_sublist.2 hq).cons_cons p).trans (List.sublist_append_right as _)

/-! ### Chains of post-dominators -/

/-- In the order of the tree, all that post-dominates an immediate post-dominator is left before it. -/
theorem idxOf_lt_of_postDominates (h : IsFlowGraph S r stop)
    (horder : ∀ v ∈ S.nodes, ∀ p q, IsIpdom S.Step stop p v → IsIpdom S.Step stop q p →
      l.idxOf q < l.idxOf p)
    (hv : v ∈ S.nodes) (hp : IsIpdom S.Step stop p v) (hq : PostDominates S.Step stop q p)
    (hne : q ≠ p) : l.idxOf q < l.idxOf p := by
  -- the chain from `p` up the tree comes earlier and earlier in the list
  induction hidx : l.idxOf p using Nat.strong_induction_on generalizing v p with
  | _ n ih =>
    have hpn := h.postDominator_mem hv hp.postDominates
    have hstop : p ≠ stop := by
      rintro rfl
      exact hne (not_postDominates_stop hq)
    obtain ⟨p', hp'⟩ := h.exists_isIpdom hpn hstop
    have hlt := horder v hv p p' hp hp'
    rw [hidx] at hlt
    rcases eq_or_ne q p' with rfl | hqp'
    · exact hlt
    · exact (ih _ hlt hpn hp' (hp'.closest q hq hne) hqp' rfl).trans hlt

/-! ### When the scan is right -/

section

variable {R : Results}
  (hscan : Scan S.succ S.arcSucc r [r] {r} (S.succ r) evs V)
  (hlist : R.topoList = (postorder r evs).reverse)
  (hsets : IsDomSets (flip S.Step) stop S.nodes R.postDom)

include hsets in
theorem setIn_postDom_iff (h : IsFlowGraph S r stop) (hv : v ∈ S.nodes) :
    setIn (R.postDom v) q ↔ PostDominates S.Step stop q v := by
  rw [hsets.setIn_iff hv, ← postDominates_iff]
  exact and_iff_right_of_imp (h.postDominator_mem hv)

include hscan hlist hsets in
theorem immPostDominRight_scan (h : IsFlowGraph S r stop) :
    ImmPostDominRight S stop R ↔ ∀ v ∈ S.nodes, ∀ p q, IsIpdom S.Step stop p v →
      IsIpdom S.Step stop q p → (postorder r evs).idxOf q < (postorder r evs).idxOf p := by
  have hmem : ∀ v, v ∈ R.topoList ↔ v ∈ S.nodes := fun v ↦ by
    rw [hlist, List.mem_reverse, h.mem_postorder_iff hscan]
  constructor
  · intro hright v hv p q hp hq
    have hne : v ≠ stop := by
      rintro rfl
      exact hp.ne (not_postDominates_stop hp.postDominates)
    obtain ⟨p', hp'⟩ := Option.ne_none_iff_exists'.1 ((hright v hv).1.not.2 hne)
    obtain rfl := h.isIpdom_eq hv ((hright v hv).2 p' hp') hp
    obtain ⟨-, -, as, bs, hsplit, hfirst⟩ := getImmPostDomin_eq_some_iff.1 hp'
    -- `q` is a post-dominator of `v`, so it does not come before
    have hqv : v ≠ q := by
      rintro rfl
      exact hp.ne (hp.postDominates.antisymm (h.coreach _ (h.postDominator_mem hv hp.postDominates))
        hq.postDominates)
    have hqset := (setIn_postDom_iff hsets h hv).2 (hq.postDominates.trans hp.postDominates)
    have hqmem : q ∈ as ++ p' :: bs := hsplit ▸ (hmem q).2 (h.postDominator_mem hv
      (hq.postDominates.trans hp.postDominates))
    rw [List.mem_append, List.mem_cons] at hqmem
    have hqbs : q ∈ bs := (hqmem.resolve_left fun hqas ↦ hfirst q hqas hqv hqset).resolve_left hq.ne
    exact idxOf_lt_of_reverse hscan.nodup_postorder (hlist ▸ hsplit) hqbs
  · intro horder v hv
    refine ⟨⟨fun hnone ↦ ?_, fun hstop ↦ ?_⟩, fun p hp ↦ ?_⟩
    · by_contra hne
      obtain ⟨p, hp⟩ := h.exists_isIpdom hv hne
      exact getImmPostDomin_eq_none_iff.1 hnone p
        ((hmem p).2 (h.postDominator_mem hv hp.postDominates)) hp.ne.symm
        ((setIn_postDom_iff hsets h hv).2 hp.postDominates)
    · subst hstop
      exact getImmPostDomin_eq_none_iff.2 fun q _ hne hset ↦
        hne (not_postDominates_stop ((setIn_postDom_iff hsets h hv).1 hset)).symm
    · obtain ⟨hpv, hset, as, bs, hsplit, hfirst⟩ := getImmPostDomin_eq_some_iff.1 hp
      have hpdom := (setIn_postDom_iff hsets h hv).1 hset
      have hne : v ≠ stop := by
        rintro rfl
        exact hpv (not_postDominates_stop hpdom).symm
      obtain ⟨p', hp'⟩ := h.exists_isIpdom hv hne
      rcases eq_or_ne p p' with rfl | hpp'
      · exact hp'
      -- what the scan has found post-dominates the immediate post-dominator, and stands before it
      · have hlt := idxOf_lt_of_postDominates h horder hv hp' (hp'.closest p hpdom hpv.symm) hpp'
        have hp'mem : p' ∈ as ++ p :: bs := hsplit ▸ (hmem p').2
          (h.postDominator_mem hv hp'.postDominates)
        rw [List.mem_append, List.mem_cons] at hp'mem
        have hbs : p' ∈ bs := (hp'mem.resolve_left fun has ↦ hfirst p' has hp'.ne.symm
          ((setIn_postDom_iff hsets h hv).2 hp'.postDominates)).resolve_left hpp'.symm
        exact absurd hlt (idxOf_lt_of_reverse hscan.nodup_postorder (hlist ▸ hsplit) hbs).not_gt

end

/-- When the traversal leaves all immediate post-dominators first, they are in the order of the tree. -/
theorem inOrder_of_leftFirst (h : IsFlowGraph S r stop)
    (hfirst : PostDomsLeftFirst S r stop) : PostDomsInOrder S r stop := by
  obtain ⟨evs, V, hscan, hfirst⟩ := hfirst
  refine ⟨evs, V, hscan, fun v hv p q hp hq ↦ ?_⟩
  refine hfirst p (h.postDominator_mem hv hp.postDominates) ?_ q hq
  rintro rfl
  exact hq.ne (not_postDominates_stop hq.postDominates)

/-- **The end blocks of regions** are the immediate post-dominators exactly when the traversal leaves them
in the order of the tree, and they are those of the graph as well exactly when it leaves them all first. -/
theorem immPostDominRight_iff (h : IsFlowGraph S r stop) :
    ∃ R, runAnalyses S [.topologicalSort, .postDominator, .immPostDominator] = .ok R ∧
      (ImmPostDominRight S stop R ↔ PostDomsInOrder S r stop) ∧
      (ImmPostDominRight S stop R ∧ (∀ v ∈ S.nodes,
          getImmPostDomin R.postDom R.topoList v = R.immPostDom v) ↔ PostDomsLeftFirst S r stop) := by
  obtain ⟨evs, V, R, hscan, hrun, hlist, hsets, hT, himm⟩ := h.runAnalyses_spec
  have hright : ImmPostDominRight S stop R ↔ PostDomsInOrder S r stop := by
    rw [immPostDominRight_scan hscan hlist hsets h]
    refine ⟨fun horder ↦ ⟨evs, V, hscan, horder⟩, ?_⟩
    rintro ⟨evs', V', hscan', horder⟩
    obtain ⟨rfl, -⟩ := hscan.unique hscan'
    exact horder
  have hgraph := h.immPostDomRight_from hT himm
  refine ⟨R, hrun, hright, ?_, fun hfirst ↦ ?_⟩
  · rintro ⟨hscanRight, heq⟩
    refine hgraph.1 fun v hv hne ↦ ?_
    obtain ⟨p, hp⟩ := Option.ne_none_iff_exists'.1 ((hscanRight v hv).1.not.2 hne)
    exact ⟨p, (heq v hv).symm.trans hp, (hscanRight v hv).2 p hp⟩
  · have hscanRight := hright.2 (inOrder_of_leftFirst h hfirst)
    refine ⟨hscanRight, fun v hv ↦ ?_⟩
    rcases eq_or_ne v stop with rfl | hne
    · rw [(hscanRight v hv).1.2 rfl, h.immPostDom_stop himm]
    · obtain ⟨p, hp, hipdom⟩ := hgraph.2 hfirst v hv hne
      obtain ⟨p', hp'⟩ := Option.ne_none_iff_exists'.1 ((hscanRight v hv).1.not.2 hne)
      obtain rfl := h.isIpdom_eq hv ((hscanRight v hv).2 p' hp') hipdom
      rw [hp, hp']

theorem immPostDominRight_diamond : ∃ R,
    runAnalyses diamond [.topologicalSort, .postDominator, .immPostDominator] = .ok R ∧
      ImmPostDominRight diamond 4 R := by
  obtain ⟨R, hR, -, hright⟩ := immPostDominRight_iff diamond_isFlowGraph
  exact ⟨R, hR, (hright.2 (diamond_isFlowGraph.leftFirst_of_acyclic diamond_acyclic)).1⟩

/-- A loop of the nodes 2, 3 and 4, which is left from node 2. -/
def longLoop : Shape := createCbGraph [(1, [2]), (2, [3, 5]), (3, [4]), (4, [2]), (5, [])]

theorem longLoop_isFlowGraph : IsFlowGraph longLoop 1 5 := by
  have h₁₂ : longLoop.Reach 1 2 := .single ⟨1, by decide, rfl⟩
  have h₂₃ : longLoop.Reach 2 3 := .single ⟨2, by decide, rfl⟩
  have h₂₅ : longLoop.Reach 2 5 := .single ⟨3, by decide, rfl⟩
  have h₃₄ : longLoop.Reach 3 4 := .single ⟨4, by decide, rfl⟩
  have h₄₂ : longLoop.Reach 4 2 := .single ⟨5, by decide, rfl⟩
  refine ⟨createCbGraph_wf (by decide) (by decide), rfl, rfl, ?_, ?_⟩
  · exact List.forall_iff_forall_mem.1
      ⟨.refl, h₁₂, h₁₂.trans h₂₃, (h₁₂.trans h₂₃).trans h₃₄, h₁₂.trans h₂₅⟩
  · exact List.forall_iff_forall_mem.1
      ⟨h₁₂.trans h₂₅, h₂₅, (h₃₄.trans h₄₂).trans h₂₅, h₄₂.trans h₂₅, .refl⟩

/-- Node 4 follows node 3 always, but node 2 comes first in `topo_list`. -/
theorem not_immPostDominRight_longLoop : IsFlowGraph longLoop 1 5 ∧ ∃ R,
    runAnalyses longLoop [.topologicalSort, .postDominator, .immPostDominator] = .ok R ∧
      ¬ImmPostDominRight longLoop 5 R ∧ getImmPostDomin R.postDom R.topoList 3 = some 2 ∧
      IsIpdom longLoop.Step 5 4 3 := by
  have hstep₃ : ∀ b, longLoop.Step 3 b → b = 4 := by
    rintro _ ⟨a, ha, rfl⟩
    obtain rfl : a = 4 := by simpa using (show a ∈ [4] from ha)
    rfl
  have hfour : PostDominates longLoop.Step 5 4 3 := by
    intro l hl
    cases hl with
    | cons hab hl =>
      obtain rfl := hstep₃ _ hab
      exact List.mem_cons_of_mem _ hl.head_mem
  have hnot : ¬PostDominates longLoop.Step 5 4 2 := fun h ↦
    absurd (h [2, 5] (.cons ⟨3, by decide, rfl⟩ (.nil 5))) (by decide)
  refine ⟨longLoop_isFlowGraph, _, rfl, fun h ↦ ?_, by decide +kernel, hfour, by decide,
    fun p hp hne ↦ hp.of_edge hne ⟨4, by decide, rfl⟩⟩
  have htwo := (h 3 (by decide)).2 2 (by decide +kernel)
  exact hnot (htwo.closest 4 hfour (by decide))

end OpenImpact.Lblock
