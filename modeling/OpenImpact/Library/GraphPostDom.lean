import OpenImpact.Foundation.PostDominator
import OpenImpact.Library.GraphAnalyses
import OpenImpact.Library.GraphNodeIds

/-!
# Immediate post-dominators

`Graph_imm_post_dominator` goes through `topo_list` from its end, which is the postorder of the sort, and
takes the post-dominator that comes last before the node. That is right exactly when the traversal leaves
the immediate post-dominator of every node before the node (`immPostDomRight_iff`): in every graph
without cycles (`IsFlowGraph.leftFirst_of_acyclic`), but not where the header of a loop post-dominates
its body.

The result needs a graph whose nodes the root reaches and which all reach one stop node, and ids
that are exact for the sweep from there (`NodeIds.ExactAt`). It rests on the order that the
traversal leaves (`PostDomsLeftFirst`), a property of the depth-first events and of the
post-dominator tree alone. What `imm_post_dom` has before the sort, or in a graph with several stop
nodes, is not claimed.
-/

namespace OpenImpact.Graph

open Foundation Foundation.Dfs

/-- One root and one node without successors, and all nodes between them. -/
structure IsFlowGraph (S : Shape) (r stop : Id) : Prop where
  wf : S.WF
  root : S.root = some r
  succ_stop : S.succ stop = []
  reach : ∀ v ∈ S.nodes, S.Reach r v
  coreach : ∀ v ∈ S.nodes, S.Reach v stop

/-- The `imm_post_dom` fields of the nodes other than `stop` are the immediate post-dominators. -/
def ImmPostDomRight (S : Shape) (stop : Id) (immPostDom : Id → Option Id) : Prop :=
  ∀ v ∈ S.nodes, v ≠ stop → ∃ p, immPostDom v = some p ∧ IsIpdom S.Step stop p v

/-- The depth-first traversal from the root leaves the immediate post-dominator of a node before the
node. -/
def PostDomsLeftFirst (S : Shape) (r stop : Id) : Prop :=
  ∃ evs V, Scan S.succ S.arcSucc r [r] {r} (S.succ r) evs V ∧
    ∀ v ∈ S.nodes, v ≠ stop → ∀ p, IsIpdom S.Step stop p v →
      (postorder r evs).idxOf p < (postorder r evs).idxOf v

variable {S : Shape} {r stop : Id}

/-- The root is a node. -/
theorem IsFlowGraph.root_mem (h : IsFlowGraph S r stop) : r ∈ S.nodes := h.wf.root_mem r h.root

/-- So is the last node. -/
theorem IsFlowGraph.stop_mem (h : IsFlowGraph S r stop) : stop ∈ S.nodes := by
  rcases (h.coreach r h.root_mem).cases_tail with heq | ⟨b, -, hb⟩
  · exact heq ▸ h.root_mem
  · exact (step_mem_nodes h.wf hb).2

/-- Only the last node has no successors. -/
theorem IsFlowGraph.succ_ne_nil (h : IsFlowGraph S r stop) {v : Id} (hv : v ∈ S.nodes)
    (hne : v ≠ stop) : S.succ v ≠ [] := by
  rcases (h.coreach v hv).cases_head with heq | ⟨b, ⟨a, ha, -⟩, -⟩
  · exact absurd heq hne
  · exact List.ne_nil_of_mem ha

/-- A post-dominator of a node is a node. -/
theorem IsFlowGraph.postDominator_mem (h : IsFlowGraph S r stop) (hv : v ∈ S.nodes)
    (hp : PostDominates S.Step stop p v) : p ∈ S.nodes := by
  rcases (hp.reflTransGen (h.coreach v hv)).cases_tail with rfl | ⟨b, -, hb⟩
  · exact hv
  · exact (step_mem_nodes h.wf hb).2

/-- Every other node has an immediate post-dominator. -/
theorem IsFlowGraph.exists_isIpdom (h : IsFlowGraph S r stop) (hv : v ∈ S.nodes) (hne : v ≠ stop) :
    ∃ p, IsIpdom S.Step stop p v := by
  obtain ⟨p, hp⟩ := exists_isIdom (reflTransGen_flip (h.coreach v hv)) hne
  exact ⟨p, isIpdom_iff.2 hp⟩

/-- There is only one. -/
theorem IsFlowGraph.isIpdom_eq (h : IsFlowGraph S r stop) (hv : v ∈ S.nodes)
    (hp : IsIpdom S.Step stop p v) (hq : IsIpdom S.Step stop q v) : p = q :=
  (isIpdom_iff.1 hp).eq (reflTransGen_flip (h.coreach v hv)) (isIpdom_iff.1 hq)

/-- Nothing else post-dominates the last node. -/
theorem not_postDominates_stop (hp : PostDominates S.Step stop p stop) : p = stop :=
  dominates_root_iff.1 (postDominates_iff.1 hp)

/-- **`Graph_post_dominator` is right.** -/
theorem IsFlowGraph.postDominator (h : IsFlowGraph S r stop) {M : Marks}
    (hflag : M.flags.postDom = false) :
    ∃ postDom, postDominator S M =
        .ok { M with postDom := postDom, flags := { M.flags with postDom := true } } ∧
      IsDomSets (flip S.Step) stop S.nodes postDom := by
  have hadj : ∀ v ∈ S.nodes, ∀ a ∈ S.succ v, S.arcSucc a ∈ S.nodes := fun v _ a ha ↦
    arcSucc_mem_nodes h.wf ha
  obtain ⟨postDom, hrun, -⟩ := computeDom_ok hadj M.postDom
  have hright := computeDom_spec hadj (fun v hv hne ↦ h.succ_ne_nil hv hne) h.succ_stop h.stop_mem
    (fun x y hxy _ ↦ (step_mem_nodes h.wf (x := y) (y := x) hxy).1) hrun
  refine ⟨postDom, ?_, hright⟩
  rw [Graph.postDominator, hflag, if_neg Bool.false_ne_true, hrun]
  rfl

/-! ### The scan -/

section

variable {evs : List (Event Id Id)} {V : Set Id}
  (hscan : Scan S.succ S.arcSucc r [r] {r} (S.succ r) evs V)

include hscan in
/-- The traversal reaches all nodes. -/
theorem IsFlowGraph.mem_postorder_iff (h : IsFlowGraph S r stop) {v : Id} :
    v ∈ postorder r evs ↔ v ∈ S.nodes := by
  rw [hscan.postorder_perm.mem_iff]
  exact ⟨mem_nodes_of_mem_preorder h.wf h.root hscan,
    fun hv ↦ hscan.mem_preorder_iff_reach.2 (h.reach v hv)⟩

include hscan in
/-- The order of the traversal is right if each node comes behind its immediate post-dominator. -/
theorem IsFlowGraph.idomsFirst_iff (h : IsFlowGraph S r stop) :
    IdomsFirst (flip S.Step) stop (postorder r evs) ↔
      ∀ v ∈ S.nodes, v ≠ stop → ∀ p, IsIpdom S.Step stop p v →
        (postorder r evs).idxOf p < (postorder r evs).idxOf v := by
  constructor
  · intro hfirst v hv _ p hp
    exact hfirst v ((h.mem_postorder_iff hscan).2 hv) p (isIpdom_iff.1 hp)
  · intro hfirst v hv p hp
    refine hfirst v ((h.mem_postorder_iff hscan).1 hv) ?_ p (isIpdom_iff.2 hp)
    rintro rfl
    exact hp.ne (dominates_root_iff.1 hp.dominates)

include hscan in
/-- **What the scan of the postorder finds.** -/
theorem IsFlowGraph.immPostDomRight_scan (h : IsFlowGraph S r stop) {postDom : Id → Option (Finset Id)}
    (hsets : IsDomSets (flip S.Step) stop S.nodes postDom) {immPostDom : Id → Option Id}
    (himm : ∀ v ∈ S.nodes, immPostDom v = lastBefore v (postDom v) (postorder r evs) none) :
    ImmPostDomRight S stop immPostDom ↔ IdomsFirst (flip S.Step) stop (postorder r evs) := by
  have hreach : ∀ v ∈ postorder r evs, Relation.ReflTransGen (flip S.Step) stop v := fun v hv ↦
    reflTransGen_flip (h.coreach v ((h.mem_postorder_iff hscan).1 hv))
  constructor
  · intro hright v hv p hp
    have hvn := (h.mem_postorder_iff hscan).1 hv
    have hne : v ≠ stop := by
      rintro rfl
      exact hp.ne (dominates_root_iff.1 hp.dominates)
    obtain ⟨p', hp', hipdom⟩ := hright v hvn hne
    obtain rfl : p' = p := (isIpdom_iff.1 hipdom).eq (hreach v hv) hp
    -- what the scan finds stands before the node
    rw [himm v hvn] at hp'
    rcases lastBefore_split v (postDom v) (postorder r evs) none with ⟨heq, -⟩ |
      ⟨l₁, d, l₂, hsplit, -, -, heq⟩
    · simp [heq] at hp'
    · obtain rfl : d = p' := Option.some.inj (heq.symm.trans hp')
      rw [← mem_takeWhile_iff_idxOf_lt, hsplit]
      simp
  · intro hfirst v hv hne
    obtain ⟨hnone, hsome⟩ := lastBefore_isIdom hsets (fun v ↦ h.mem_postorder_iff hscan)
      hscan.nodup_postorder hreach hfirst hv
    obtain ⟨p, hp⟩ := Option.ne_none_iff_exists'.1 fun heq ↦ hne (hnone.1 heq)
    exact ⟨p, (himm v hv).trans hp, isIpdom_iff.2 (hsome p hp)⟩

end

/-- The immediate post-dominators are what the scan of `l` from its end finds. -/
def ImmPostDomFrom (S : Shape) (l : List Id) (immPostDom : Id → Option Id) : Prop :=
  ∃ F, postDominator S .fresh = .ok F ∧
    ∀ v ∈ S.nodes, immPostDom v = lastBefore v (F.postDom v) l.reverse none

/-- The scan finds nothing for the exit. -/
theorem IsFlowGraph.immPostDom_stop (h : IsFlowGraph S r stop) {l : List Id}
    {immPostDom : Id → Option Id} (himm : ImmPostDomFrom S l immPostDom) : immPostDom stop = none := by
  obtain ⟨F, hF, himm⟩ := himm
  obtain ⟨postDom, hpost, hsets⟩ := h.postDominator (M := .fresh) rfl
  obtain rfl := Except.ok.inj (hpost.symm.trans hF)
  rw [himm stop h.stop_mem]
  rcases lastBefore_split stop (postDom stop) l.reverse none with ⟨hnone, -⟩ |
    ⟨l₁, d, l₂, hsplit, hd, -⟩
  · exact hnone
  · have hdl : d ∈ l.reverse.takeWhile (· ≠ stop) := by
      rw [hsplit]
      simp
    have hdom := ((hsets.setIn_iff h.stop_mem).1 hd).2
    exact absurd (dominates_root_iff.1 hdom) (by simpa using List.mem_takeWhile_imp hdl)

/-- The first run computes the immediate post-dominators from the order that it finds. -/
theorem AnalysesInv.immPostDom_from {T : List Id} {R R' : Results} (hS : S.WF)
    (h : AnalysesInv S T R) (hdone : R.immPostDomDone = false)
    (hrun : Graph.immPostDominator S R = .ok R') :
    ImmPostDomFrom S (if R.flags.topoSort then T else []) R'.immPostDom ∧
      R'.immPostDomDone = true := by
  rcases immPostDominator_cases hrun with ⟨htrue, -⟩ | ⟨-, M, hM, rfl⟩
  · exact absurd (hdone.symm.trans htrue) Bool.false_ne_true
  · obtain ⟨F, hF, -, hfresh⟩ := postDominator_fresh hS h.marks.outside h.marks.lists.postDom
    obtain rfl := Except.ok.inj (hfresh.symm.trans hM)
    refine ⟨⟨F, hF, fun v hv ↦ ?_⟩, rfl⟩
    simp only [hv, if_true]
    rw [h.topoList]

/-- **What the scan of `topo_list` finds.** -/
theorem IsFlowGraph.immPostDomRight_from (h : IsFlowGraph S r stop) {T : List Id}
    (hT : IsTopoList S T) {immPostDom : Id → Option Id} (himm : ImmPostDomFrom S T immPostDom) :
    ImmPostDomRight S stop immPostDom ↔ PostDomsLeftFirst S r stop := by
  obtain ⟨evs, V, Tf, hscan, htopo, -⟩ := topologicalSort_spec h.wf h.root (M := .fresh) rfl
  obtain ⟨t, F', hF', rfl⟩ := hT
  obtain ⟨-, rfl⟩ := Prod.mk.inj (Except.ok.inj (htopo.symm.trans hF'))
  obtain ⟨F, hF, himm⟩ := himm
  obtain ⟨postDom, hpost, hsets⟩ := h.postDominator (M := .fresh) rfl
  obtain rfl := Except.ok.inj (hpost.symm.trans hF)
  rw [h.immPostDomRight_scan hscan hsets fun v hv ↦ by rw [himm v hv, List.reverse_reverse],
    h.idomsFirst_iff hscan]
  refine ⟨fun hleft ↦ ⟨evs, V, hscan, hleft⟩, ?_⟩
  rintro ⟨evs', V', hscan', hleft⟩
  obtain ⟨rfl, -⟩ := hscan.unique hscan'
  exact hleft

/-- The sort, the post-dominators and the scan, one after the other. -/
theorem IsFlowGraph.runAnalyses_spec (h : IsFlowGraph S r stop) :
    ∃ evs V R, Scan S.succ S.arcSucc r [r] {r} (S.succ r) evs V ∧
      runAnalyses S [.topologicalSort, .postDominator, .immPostDominator] = .ok R ∧
      R.topoList = (postorder r evs).reverse ∧ IsDomSets (flip S.Step) stop S.nodes R.postDom ∧
      IsTopoList S R.topoList ∧ ImmPostDomFrom S R.topoList R.immPostDom := by
  obtain ⟨evs, V, Tf, hscan, htopo, -⟩ := topologicalSort_spec h.wf h.root (M := .fresh) rfl
  obtain ⟨t, M₁, htopo, hlist, hpostFlag⟩ : ∃ t M₁, topologicalSort S .fresh = .ok (t, M₁) ∧
      M₁.topoList = (postorder r evs).reverse ∧ M₁.flags.postDom = false :=
    ⟨_, _, htopo, rfl, rfl⟩
  have hT : IsTopoList S M₁.topoList := ⟨t, M₁, htopo, rfl⟩
  obtain ⟨hinv, hflag⟩ := (AnalysesInv.fresh S _).topologicalSort h.wf hT htopo
  obtain ⟨postDom, hpost, hsets⟩ := h.postDominator hpostFlag
  have hinv₂ := hinv.setMarks (hinv.marks.postDominator h.wf hpost).1 (postDominator_kept hpost)
  -- the flag is set, so the scan takes the sets as they are
  obtain ⟨R, hR, hRlist, hRsets⟩ : ∃ R, Graph.immPostDominator S { Results.fresh with
      toMarks := { M₁ with postDom := postDom, flags := { M₁.flags with postDom := true } } } = .ok R ∧
      R.topoList = M₁.topoList ∧ R.postDom = postDom :=
    ⟨_, rfl, rfl, rfl⟩
  obtain ⟨himm, -⟩ := hinv₂.immPostDom_from h.wf rfl hR
  rw [if_pos (by exact hflag)] at himm
  refine ⟨evs, V, R, hscan, ?_, hRlist.trans hlist, hRsets ▸ hsets, hRlist ▸ hT, hRlist ▸ himm⟩
  show ([.topologicalSort, .postDominator, .immPostDominator] : List Analysis).foldlM
    (analyse S) .fresh = .ok R
  rw [List.foldlM_cons, analyse, show topologicalSort S Results.fresh.toMarks = _ from htopo,
    Run.map_ok, Run.ok_bind, List.foldlM_cons, analyse, hpost, Run.map_ok, Run.ok_bind,
    List.foldlM_cons, analyse, hR, Run.ok_bind]
  rfl

/-- The last node is the only one without successors. -/
theorem IsFlowGraph.succ_eq_nil_iff (h : IsFlowGraph S r stop) {v : Id} (hv : v ∈ S.nodes) :
    S.succ v = [] ↔ v = stop :=
  ⟨fun hnil ↦ of_not_not fun hne ↦ h.succ_ne_nil hv hne hnil, fun heq ↦ heq ▸ h.succ_stop⟩

/-- With these ids the sets of ids are as good as the sets of nodes. -/
theorem IsFlowGraph.postDominatorIds_eq (h : IsFlowGraph S r stop) {ids : NodeIds S}
    (hids : ids.ExactAt stop) (M : Marks) : postDominatorIds S ids M = Graph.postDominator S M :=
  Graph.postDominatorIds_eq h.wf ids h.stop_mem (fun _ hv ↦ h.succ_eq_nil_iff hv) hids M

/-- No node leads back to itself. -/
def Shape.Acyclic (S : Shape) : Prop := ∀ x y, S.Step x y → ¬S.Reach y x

/-- Without cycles there are no back arcs. -/
theorem Shape.Acyclic.sublist_postorder (hacyc : S.Acyclic) {evs : List (Event Id Id)} {V : Set Id}
    (hscan : Scan S.succ S.arcSucc r [r] {r} (S.succ r) evs V) {v a : Id}
    (hv : v ∈ preorder S.arcSucc r evs) (ha : a ∈ S.succ v) :
    [S.arcSucc a, v].Sublist (postorder r evs) := by
  refine (hscan.sublist_postorder_of_arc hv ha).resolve_left fun hback ↦ ?_
  -- a back arc closes a cycle
  refine hacyc v _ ⟨a, ha, rfl⟩
    (Relation.ReflTransGen.mono ?_ _ _ (hscan.ancestor_of_back_root hback))
  rintro x _ ⟨e, he, rfl⟩
  exact ⟨e, hscan.mem_out_of_enter (fun _ h ↦ h) he, rfl⟩

/-- **Without cycles the traversal leaves what a node leads to before the node.** -/
theorem Shape.Acyclic.idxOf_lt (hacyc : S.Acyclic) {evs : List (Event Id Id)} {V : Set Id}
    (hscan : Scan S.succ S.arcSucc r [r] {r} (S.succ r) evs V) {v p : Id}
    (hv : v ∈ preorder S.arcSucc r evs) (hreach : S.Reach v p) (hne : p ≠ v) :
    (postorder r evs).idxOf p < (postorder r evs).idxOf v := by
  induction hreach using Relation.ReflTransGen.head_induction_on with
  | refl => exact absurd rfl hne
  | @head x y hxy hyp ih =>
    obtain ⟨a, ha, rfl⟩ := hxy
    have hlt := idxOf_lt_of_sublist hscan.nodup_postorder (hacyc.sublist_postorder hscan hv ha)
    rcases eq_or_ne p (S.arcSucc a) with hpy | hpy
    · rwa [hpy]
    · refine (ih ?_ hpy).trans hlt
      rw [hscan.mem_preorder_iff_reach] at hv ⊢
      exact hv.tail ⟨a, ha, rfl⟩

/-- Without cycles the post-dominators of a node are left before it. -/
theorem IsFlowGraph.leftFirst_of_acyclic (h : IsFlowGraph S r stop) (hacyc : S.Acyclic) :
    PostDomsLeftFirst S r stop := by
  obtain ⟨evs, V, Tf, hscan, -⟩ := topologicalSort_spec h.wf h.root (M := .fresh) rfl
  refine ⟨evs, V, hscan, fun v hv _ p hp ↦ ?_⟩
  exact hacyc.idxOf_lt hscan (hscan.mem_preorder_iff_reach.2 (h.reach v hv))
    (hp.postDominates.reflTransGen (h.coreach v hv)) hp.ne

/-- A graph whose arcs lead to larger numbers has no cycle. -/
theorem Shape.acyclic_of_lt (hS : S.WF) (f : Id → ℕ)
    (hlt : ∀ a ∈ S.arcs, f (S.arcPred a) < f (S.arcSucc a)) : S.Acyclic := by
  have hstep : ∀ {x y}, S.Step x y → f x < f y := by
    rintro x _ ⟨a, ha, rfl⟩
    obtain ⟨harc, rfl⟩ := (hS.mem_succ x a).1 ha
    exact hlt a harc
  intro x y hxy hyx
  have hle : f y ≤ f x := by
    clear hxy
    induction hyx with
    | refl => exact le_rfl
    | tail _ hbc ih => exact ih.trans (hstep hbc).le
  exact absurd (hstep hxy) hle.not_gt

/-- The nodes 2 and 3 are on different ways from node 1 to node 4. -/
def diamond : Shape := createCbGraph [(1, [2, 3]), (2, [4]), (3, [4]), (4, [])]

/-- The diamond is a flow graph. -/
theorem diamond_isFlowGraph : IsFlowGraph diamond 1 4 := by
  have h₁₂ : diamond.Reach 1 2 := .single ⟨1, by decide, rfl⟩
  have h₁₃ : diamond.Reach 1 3 := .single ⟨2, by decide, rfl⟩
  have h₂₄ : diamond.Reach 2 4 := .single ⟨3, by decide, rfl⟩
  have h₃₄ : diamond.Reach 3 4 := .single ⟨4, by decide, rfl⟩
  refine ⟨createCbGraph_wf (by decide) (by decide), rfl, rfl, ?_, ?_⟩
  · exact List.forall_iff_forall_mem.1 ⟨.refl, h₁₂, h₁₃, h₁₂.trans h₂₄⟩
  · exact List.forall_iff_forall_mem.1 ⟨h₁₂.trans h₂₄, h₂₄, h₃₄, .refl⟩

/-- It has no cycle. -/
theorem diamond_acyclic : diamond.Acyclic :=
  Shape.acyclic_of_lt diamond_isFlowGraph.wf id (by decide)

/-- The names of the diamond as ids, but for the stop node, which has the id -1. -/
def diamondIds : NodeIds diamond := ⟨fun v ↦ if v = 4 then -1 else v, by decide⟩

/-- The graph with a loop is a flow graph. -/
theorem loopGraph_isFlowGraph : IsFlowGraph loopGraph 1 4 := by
  have h₁₂ : loopGraph.Reach 1 2 := .single ⟨1, by decide, rfl⟩
  have h₂₄ : loopGraph.Reach 2 4 := .single ⟨3, by decide, rfl⟩
  have h₃₂ : loopGraph.Reach 3 2 := .single ⟨4, by decide, rfl⟩
  refine ⟨loopGraph_isRooted.wf, rfl, rfl, loopGraph_isRooted.reach, ?_⟩
  exact List.forall_iff_forall_mem.1 ⟨h₁₂.trans h₂₄, h₂₄, h₃₂.trans h₂₄, .refl⟩

end OpenImpact.Graph
