import OpenImpact.Library.GraphDelete

/-!
# Cached analyses

An analysis that finds its flag set returns what an earlier run left. The results are right as long as
`Graph_delete_unreachable` finds nothing to delete (`Reachable.inv`): it leaves the flags of the
dominator sets, the path counts and the preorder set, and never removes an id from the hash tables.
The numbers in `info` and the back-edge bits are shared by several runs, so they are right only when
one analysis at a time works on them. The flag of `Graph_preorder_dfs_sort` does not say whether the sort
was a directed one, so its list is the one asked for only when no call asks for another mode while the
flag is set. `ReachedIn` records the mode that the last call asked for, and `ReachedIn.shared` is the
invariant of these runs.

An id is a natural number here. Sets of ids with negative ones are not intersected rightly by the library
(see `SignedSet`), and nothing is claimed about graphs with such ids.
-/

namespace OpenImpact.Graph

open Foundation Foundation.Dfs

/-! ### Stored results -/

/-- The stored sets and lists are those of fresh runs. -/
structure ListsCached (S : Shape) (M : Marks) : Prop where
  dom : M.flags.dom = true → ∃ F, dominator S .fresh = .ok F ∧ M.dom = F.dom
  postDom : M.flags.postDom = true → ∃ F, postDominator S .fresh = .ok F ∧ M.postDom = F.postDom
  topoSort : M.flags.topoSort = true →
    ∃ t F, topologicalSort S .fresh = .ok (t, F) ∧ M.topoList = F.topoList
  dfsPreSort : M.flags.dfsPreSort = true →
    ∃ directed F, preorderDfsSort S directed .fresh = .ok F ∧ M.dfsList = F.dfsList

/-- So are the numbers in `info` and the back-edge bits, which belong to several runs, and the preorder
list is that of a run in the mode `mode`. -/
structure SharedCached (S : Shape) (M : Marks) (mode : Option Bool) : Prop where
  topoSort : M.flags.topoSort = true →
    ∃ t F, topologicalSort S .fresh = .ok (t, F) ∧ M.info = F.info
  dfsPreSort : M.flags.dfsPreSort = true → ∃ directed F, mode = some directed ∧
    preorderDfsSort S directed .fresh = .ok F ∧ M.dfsList = F.dfsList ∧ M.info = F.info ∧
    (directed = true → ∀ a ∈ S.arcs, M.backedge a = F.backedge a)
  countPath : M.flags.countPath = true → ∃ F, countPaths S .fresh = .ok F ∧ M.info = F.info

/-- The id lookups find the nodes and arcs of the graph. -/
structure Lookups (G : State) : Prop where
  node : ∀ id, id ∈ G.hashIdNode ↔ id ∈ G.shape.nodes
  arc : ∀ id, id ∈ G.hashIdArc ↔ id ∈ G.shape.arcs

/-- Every node is reachable from the root. -/
def AllReachable (S : Shape) : Prop := ∀ v ∈ S.nodes, ∃ r, S.root = some r ∧ S.Reach r v

/-- The lists of `S'` are those of `S` without the nodes not reachable from the root and the arcs out
of them. -/
structure DeletedLists (S S' : Shape) : Prop where
  nodes : ∀ v, v ∈ S'.nodes ↔ v ∈ S.nodes ∧ ∃ r, S.root = some r ∧ S.Reach r v
  arcs : ∀ a, a ∈ S'.arcs ↔ a ∈ S.arcs ∧ S.arcPred a ∈ S'.nodes
  pred : ∀ v ∈ S'.nodes, ∀ a, a ∈ S'.pred v ↔ a ∈ S.pred v ∧ S.arcPred a ∈ S'.nodes

/-! ### An analysis depends on the shape only -/

/-- The fields of what is not a node are as in a new graph. -/
structure Outside (S : Shape) (M : Marks) : Prop where
  tflags : ∀ v, v ∉ S.nodes → M.tflags v = 0
  info : ∀ v, v ∉ S.nodes → M.info v = 0
  dom : ∀ v, v ∉ S.nodes → M.dom v = none
  postDom : ∀ v, v ∉ S.nodes → M.postDom v = none

theorem Outside.fresh (S : Shape) : Outside S .fresh :=
  ⟨fun _ _ ↦ rfl, fun _ _ ↦ rfl, fun _ _ ↦ rfl, fun _ _ ↦ rfl⟩

/-- Computing the sets does not depend on what was there before, but for what is no node. -/
theorem computeDom_fresh {adj : Id → List Id} {other : Id → Id} {nodes : List Id}
    (hadj : ∀ v ∈ nodes, ∀ a ∈ adj v, other a ∈ nodes) {dom : Id → Option (Finset Id)}
    (hdom : ∀ v, v ∉ nodes → dom v = none) :
    ∃ dom', computeDom adj other nodes dom = .ok dom' ∧
      computeDom adj other nodes (fun _ ↦ none) = .ok dom' ∧ ∀ v, v ∉ nodes → dom' v = none := by
  have hinit : domInit adj nodes dom = domInit adj nodes fun _ ↦ none := by
    funext v
    rw [domInit, domInit]
    split_ifs with hv
    · rfl
    · rfl
    · exact hdom v hv
  obtain ⟨dom', hrun, hframe⟩ := computeDom_ok hadj fun _ ↦ none
  exact ⟨dom', by rw [computeDom, hinit, ← computeDom, hrun], hrun, hframe⟩

variable {S : Shape} (hS : S.WF) {M : Marks} (hout : Outside S M)

include hS hout in
/-- `Graph_dominator` with its flag clear does what it does on a fresh graph. -/
theorem dominator_fresh
    (hdom : M.flags.dom = true → ∃ F, dominator S .fresh = .ok F ∧ M.dom = F.dom) :
    ∃ F, dominator S .fresh = .ok F ∧ (∀ v, v ∉ S.nodes → F.dom v = none) ∧
      dominator S M = .ok { M with dom := F.dom, flags := { M.flags with dom := true } } := by
  have hadj : ∀ v ∈ S.nodes, ∀ a ∈ S.pred v, S.arcPred a ∈ S.nodes := fun v _ a ha ↦
    hS.arcPred_mem a ((hS.mem_pred v a).1 ha).1
  obtain ⟨dom', hrun, hfresh, hnone⟩ := computeDom_fresh hadj hout.dom
  have hF : dominator S .fresh =
      .ok { Marks.fresh with dom := dom', flags := { Marks.fresh.flags with dom := true } } := by
    rw [dominator, if_neg (by decide)]
    exact congrArg (· >>= _) hfresh
  refine ⟨_, hF, hnone, ?_⟩
  rw [dominator]
  split_ifs with hflag
  · obtain ⟨F, hF', heq⟩ := hdom hflag
    obtain rfl := Except.ok.inj (hF.symm.trans hF')
    rw [← hflag, ← heq]
    rfl
  · rw [hrun]
    rfl

include hS hout in
/-- So does `Graph_post_dominator`. -/
theorem postDominator_fresh
    (hpost : M.flags.postDom = true → ∃ F, postDominator S .fresh = .ok F ∧ M.postDom = F.postDom) :
    ∃ F, postDominator S .fresh = .ok F ∧ (∀ v, v ∉ S.nodes → F.postDom v = none) ∧
      postDominator S M =
        .ok { M with postDom := F.postDom, flags := { M.flags with postDom := true } } := by
  have hadj : ∀ v ∈ S.nodes, ∀ a ∈ S.succ v, S.arcSucc a ∈ S.nodes := fun v _ a ha ↦
    arcSucc_mem_nodes hS ha
  obtain ⟨postDom', hrun, hfresh, hnone⟩ := computeDom_fresh hadj hout.postDom
  have hF : postDominator S .fresh = .ok { Marks.fresh with
      postDom := postDom', flags := { Marks.fresh.flags with postDom := true } } := by
    rw [postDominator, if_neg (by decide)]
    exact congrArg (· >>= _) hfresh
  refine ⟨_, hF, hnone, ?_⟩
  rw [postDominator]
  split_ifs with hflag
  · obtain ⟨F, hF', heq⟩ := hpost hflag
    obtain rfl := Except.ok.inj (hF.symm.trans hF')
    rw [← hflag, ← heq]
    rfl
  · rw [hrun]
    rfl

include hS hout in
/-- So does the topological sort. -/
theorem topologicalSort_fresh (hflag : M.flags.topoSort = false) {t : ℤ} {M' : Marks}
    (hrun : topologicalSort S M = .ok (t, M')) :
    ∃ F T, topologicalSort S .fresh = .ok (t, F) ∧ M' = { M with
        flags := { M.flags with topoSort := true }
        tflags := T
        info := F.info
        topoList := F.topoList } ∧
      ∀ v, v ∉ S.nodes → T v = 0 ∧ F.info v = 0 := by
  cases hr : S.root with
  | none => simp [topologicalSort, hflag, Shape.getRoot, hr] at hrun
  | some r =>
    obtain ⟨evs, V, T, hscan, hsort, -, hT⟩ := topologicalSort_spec hS hr hflag
    obtain ⟨evs', V', T', hscan', hsort', -, hT'⟩ :=
      topologicalSort_spec hS hr (M := .fresh) rfl
    obtain ⟨rfl, rfl⟩ := hscan.unique hscan'
    obtain ⟨rfl, rfl⟩ := Prod.mk.inj (Except.ok.inj (hrun.symm.trans hsort))
    refine ⟨_, T, hsort', ?_, fun v hv ↦ ⟨(hT v hv).trans (hout.tflags v hv), ?_⟩⟩
    · congr 1
      funext v
      by_cases hv : v ∈ S.nodes
      · simp [hv]
      · simp [hv, hout.info v hv, Marks.fresh]
    · have hnot : v ∉ postorder r evs := fun h ↦
        hv (mem_nodes_of_mem_preorder hS hr hscan (hscan.postorder_perm.mem_iff.1 h))
      simp [hnot, hv, Marks.fresh]

include hS hout in
/-- So does the preorder sort, if the dominators are right. -/
theorem preorderDfsSort_fresh
    (hdom : M.flags.dom = true → ∃ F, dominator S .fresh = .ok F ∧ M.dom = F.dom)
    (hflag : M.flags.dfsPreSort = false) {directed : Bool} {M' : Marks}
    (hrun : preorderDfsSort S directed M = .ok M') :
    ∃ F D T B, preorderDfsSort S directed .fresh = .ok F ∧ dominator S .fresh = .ok D ∧
      M' = { M with
        flags := { M.flags with dom := true, dfsPreSort := true }
        tflags := T
        info := F.info
        dom := D.dom
        backedge := B
        dfsList := F.dfsList } ∧
      (∀ v, v ∉ S.nodes → T v = 0 ∧ F.info v = 0 ∧ D.dom v = none) ∧
      (directed = true → (∀ a ∈ S.arcs, M.backedge a = false) →
        ∀ a ∈ S.arcs, B a = F.backedge a) := by
  obtain ⟨D, hD, hnone, hDM⟩ := dominator_fresh hS hout hdom
  cases hr : S.root with
  | none => simp [preorderDfsSort, hflag, hDM, Shape.getRoot, hr] at hrun
  | some r =>
    obtain ⟨evs, V, T, B, dom, hscan, hdomM, hsort, -, hT, hB⟩ :=
      preorderDfsSort_spec hS directed hr hflag
    obtain ⟨evs', V', T', B', dom', hscan', -, hsort', -, hT', hB'⟩ :=
      preorderDfsSort_spec hS directed hr (M := .fresh) rfl
    obtain ⟨rfl, rfl⟩ := hscan.unique hscan'
    obtain rfl : dom = D.dom := congrArg Marks.dom (Except.ok.inj (hdomM.symm.trans hDM))
    obtain rfl := Except.ok.inj (hrun.symm.trans hsort)
    refine ⟨_, D, T, B, hsort', hD, ?_, fun v hv ↦ ⟨(hT v hv).trans (hout.tflags v hv), ?_,
      hnone v hv⟩, fun hdir hnew a ha ↦ ?_⟩
    · congr 1
      funext v
      by_cases hv : v ∈ S.nodes
      · simp [hv]
      · simp [hv, hout.info v hv, Marks.fresh]
    · have hnot : v ∉ preorder (dfsDst S) r evs := fun h ↦
        hv (mem_nodes_of_mem_dfs hS (hS.root_mem r hr) hscan h)
      simp [hnot, hv, Marks.fresh]
    · rw [Bool.eq_iff_iff, hB, hB', hnew a ha]
      rfl

include hS hout in
/-- So does counting the paths. -/
theorem countPaths_fresh
    (hdom : M.flags.dom = true → ∃ F, dominator S .fresh = .ok F ∧ M.dom = F.dom)
    (hflag : M.flags.countPath = false) {M' : Marks} (hrun : countPaths S M = .ok M') :
    ∃ F D T, countPaths S .fresh = .ok F ∧ dominator S .fresh = .ok D ∧
      M' = { M with
        flags := { M.flags with dom := true, countPath := true }
        tflags := T
        info := F.info
        dom := D.dom } ∧
      ∀ v, v ∉ S.nodes → T v = 0 ∧ F.info v = 0 ∧ D.dom v = none := by
  obtain ⟨D, hD, hnone, hDM⟩ := dominator_fresh hS hout hdom
  obtain ⟨D', hD', -, hDF⟩ := dominator_fresh hS (.fresh S) (by simp [Marks.fresh])
  obtain rfl := Except.ok.inj (hD.symm.trans hD')
  cases hr : S.root with
  | none => simp [countPaths, hflag, hDM, Shape.getRoot, hr] at hrun
  | some r =>
    have hinit : ∀ N : Marks, Outside S N → countsInit S r N = countsInit S r .fresh := by
      intro N hN
      simp only [countsInit, Marks.fresh]
      congr 2
      · funext v
        split_ifs with hv
        · rfl
        · exact hN.tflags v hv
      · funext v
        split_ifs with hv
        · rfl
        · exact hN.info v hv
    have hM : countPaths S M = do
        let c ← countPathsVisit S D.dom S.fuel r (countsInit S r .fresh)
        return { M with
          flags := { M.flags with dom := true, countPath := true }
          tflags := c.tflags
          info := c.info
          dom := D.dom } := by
      rw [countPaths, hflag, if_neg Bool.false_ne_true, hDM, Run.ok_bind, Shape.getRoot, hr,
        Run.ok_bind, ← hinit M hout]
      rfl
    have hF : countPaths S .fresh = do
        let c ← countPathsVisit S D.dom S.fuel r (countsInit S r .fresh)
        return { Marks.fresh with
          flags := { dom := true, countPath := true }
          tflags := c.tflags
          info := c.info
          dom := D.dom } := by
      rw [countPaths, if_neg (by decide), hDF, Run.ok_bind, Shape.getRoot, hr, Run.ok_bind]
      rfl
    rw [hM] at hrun
    rcases countPathsVisit_root hS D.dom (hS.root_mem r hr) .fresh with hover | ⟨c, hc, hframe⟩
    · simp [hover] at hrun
    · rw [hc] at hrun hF
      obtain rfl := Except.ok.inj hrun
      exact ⟨_, D, c.tflags, hF, hD, rfl, fun v hv ↦
        ⟨(hframe v hv).1, (hframe v hv).2, hnone v hv⟩⟩

/-! ### What an analysis keeps -/

/-- With no flag set there is nothing stored that could be wrong. -/
theorem ListsCached.of_flags_clear (h : M.flags = {}) : ListsCached S M := by
  constructor <;> simp [h]

theorem SharedCached.of_flags_clear {mode : Option Bool} (h : M.flags = {}) : SharedCached S M mode := by
  constructor <;> simp [h]

/-- The marks between two calls. -/
structure MarksInv (S : Shape) (M : Marks) : Prop where
  outside : Outside S M
  lists : ListsCached S M

section Keep

variable {M' : Marks} (h : MarksInv S M)

include hS h

omit hout in
/-- `Graph_dominator` keeps what is stored right. -/
theorem MarksInv.dominator (hrun : dominator S M = .ok M') :
    MarksInv S M' ∧ ∀ mode, SharedCached S M mode → SharedCached S M' mode := by
  obtain ⟨F, hF, hnone, hM⟩ := dominator_fresh hS h.outside h.lists.dom
  obtain rfl := Except.ok.inj (hM.symm.trans hrun)
  exact ⟨⟨⟨h.outside.tflags, h.outside.info, hnone, h.outside.postDom⟩,
    ⟨fun _ ↦ ⟨F, hF, rfl⟩, h.lists.postDom, h.lists.topoSort, h.lists.dfsPreSort⟩⟩,
    fun _ hs ↦ ⟨hs.topoSort, hs.dfsPreSort, hs.countPath⟩⟩

omit hout in
/-- So does `Graph_post_dominator`. -/
theorem MarksInv.postDominator (hrun : postDominator S M = .ok M') :
    MarksInv S M' ∧ ∀ mode, SharedCached S M mode → SharedCached S M' mode := by
  obtain ⟨F, hF, hnone, hM⟩ := postDominator_fresh hS h.outside h.lists.postDom
  obtain rfl := Except.ok.inj (hM.symm.trans hrun)
  exact ⟨⟨⟨h.outside.tflags, h.outside.info, h.outside.dom, hnone⟩,
    ⟨h.lists.dom, fun _ ↦ ⟨F, hF, rfl⟩, h.lists.topoSort, h.lists.dfsPreSort⟩⟩,
    fun _ hs ↦ ⟨hs.topoSort, hs.dfsPreSort, hs.countPath⟩⟩

omit hout in
/-- So does the topological sort, for the shared fields if no other result is in them. -/
theorem MarksInv.topologicalSort {t : ℤ} (hrun : topologicalSort S M = .ok (t, M')) :
    MarksInv S M' ∧ ∀ mode, SharedCached S M mode → (M.flags.topoSort = false →
      M.flags.dfsPreSort = false ∧ M.flags.countPath = false) → SharedCached S M' mode := by
  by_cases hflag : M.flags.topoSort = true
  · obtain ⟨-, rfl⟩ := Prod.mk.inj (Except.ok.inj ((topologicalSort_cached hflag).symm.trans hrun))
    exact ⟨h, fun _ hs _ ↦ hs⟩
  · rw [Bool.not_eq_true] at hflag
    obtain ⟨F, T, hF, rfl, hT⟩ := topologicalSort_fresh hS h.outside hflag hrun
    refine ⟨⟨⟨fun v hv ↦ (hT v hv).1, fun v hv ↦ (hT v hv).2, h.outside.dom, h.outside.postDom⟩,
      ⟨h.lists.dom, h.lists.postDom, fun _ ↦ ⟨t, F, hF, rfl⟩, h.lists.dfsPreSort⟩⟩,
      fun _ _ hother ↦ ⟨fun _ ↦ ⟨t, F, hF, rfl⟩, fun hdfs ↦ ?_, fun hcount ↦ ?_⟩⟩
    · exact absurd hdfs (by simp [(hother hflag).1])
    · exact absurd hcount (by simp [(hother hflag).2])

omit hout in
/-- So does the preorder sort, if it also finds the mode it is called in. -/
theorem MarksInv.preorderDfsSort {directed : Bool}
    (hrun : preorderDfsSort S directed M = .ok M') :
    MarksInv S M' ∧ ∀ mode, SharedCached S M mode → (M.flags.dfsPreSort = false →
      M.flags.topoSort = false ∧ M.flags.countPath = false ∧
        (directed = true → ∀ a ∈ S.arcs, M.backedge a = false)) →
      (M.flags.dfsPreSort = true → mode = some directed) → SharedCached S M' (some directed) := by
  by_cases hflag : M.flags.dfsPreSort = true
  · rw [Graph.preorderDfsSort, if_pos hflag] at hrun
    obtain rfl := Except.ok.inj hrun
    exact ⟨h, fun _ hs _ hsame ↦ hsame hflag ▸ hs⟩
  · rw [Bool.not_eq_true] at hflag
    obtain ⟨F, D, T, B, hF, hD, rfl, hT, hB⟩ :=
      preorderDfsSort_fresh hS h.outside h.lists.dom hflag hrun
    refine ⟨⟨⟨fun v hv ↦ (hT v hv).1, fun v hv ↦ (hT v hv).2.1, fun v hv ↦ (hT v hv).2.2,
      h.outside.postDom⟩, ⟨fun _ ↦ ⟨D, hD, rfl⟩, h.lists.postDom, h.lists.topoSort,
      fun _ ↦ ⟨directed, F, hF, rfl⟩⟩⟩, fun _ _ hother _ ↦ ⟨fun htopo ↦ ?_, fun _ ↦
        ⟨directed, F, rfl, hF, rfl, rfl, fun hdir ↦ hB hdir ((hother hflag).2.2 hdir)⟩, fun hcount ↦ ?_⟩⟩
    · exact absurd htopo (by simp [(hother hflag).1])
    · exact absurd hcount (by simp [(hother hflag).2.1])

omit hout in
/-- So does counting the paths. -/
theorem MarksInv.countPaths (hrun : countPaths S M = .ok M') :
    MarksInv S M' ∧ ∀ mode, SharedCached S M mode → (M.flags.countPath = false →
      M.flags.topoSort = false ∧ M.flags.dfsPreSort = false) → SharedCached S M' mode := by
  by_cases hflag : M.flags.countPath = true
  · rw [Graph.countPaths, if_pos hflag] at hrun
    obtain rfl := Except.ok.inj hrun
    exact ⟨h, fun _ hs _ ↦ hs⟩
  · rw [Bool.not_eq_true] at hflag
    obtain ⟨F, D, T, hF, hD, rfl, hT⟩ := countPaths_fresh hS h.outside h.lists.dom hflag hrun
    refine ⟨⟨⟨fun v hv ↦ (hT v hv).1, fun v hv ↦ (hT v hv).2.1, fun v hv ↦ (hT v hv).2.2,
      h.outside.postDom⟩, ⟨fun _ ↦ ⟨D, hD, rfl⟩, h.lists.postDom, h.lists.topoSort,
      h.lists.dfsPreSort⟩⟩, fun _ _ hother ↦ ⟨fun htopo ↦ ?_, fun hdfs ↦ ?_,
        fun _ ↦ ⟨F, hF, rfl⟩⟩⟩
    · exact absurd htopo (by simp [(hother hflag).1])
    · exact absurd hdfs (by simp [(hother hflag).2])

end Keep

/-! ### Deleting -/

include hS in
omit hout in
/-- A fresh sort leaves -1 in `info` of the nodes not reachable, and returns 0 when there are none. -/
theorem topologicalSort_reach {t : ℤ} {F : Marks} (hF : topologicalSort S .fresh = .ok (t, F)) :
    (∀ v ∈ S.nodes, F.info v ≠ -1 ↔ ∃ r, S.root = some r ∧ S.Reach r v) ∧
      t = S.nodes.length - F.topoList.length ∧ (t = 0 ↔ AllReachable S) := by
  cases hr : S.root with
  | none => simp [topologicalSort, Shape.getRoot, hr, Marks.fresh] at hF
  | some r =>
    obtain ⟨evs, V, T, hscan, hsort, -⟩ := topologicalSort_spec hS hr (M := .fresh) rfl
    obtain ⟨rfl, rfl⟩ := Prod.mk.inj (Except.ok.inj (hF.symm.trans hsort))
    have hmem : ∀ v, v ∈ postorder r evs ↔ S.Reach r v := fun v ↦ by
      rw [hscan.postorder_perm.mem_iff, hscan.mem_preorder_iff_reach]
    have hsub : postorder r evs ⊆ S.nodes := fun v hv ↦
      mem_nodes_of_mem_preorder hS hr hscan (hscan.postorder_perm.mem_iff.1 hv)
    refine ⟨fun v hv ↦ ?_, by simp, ⟨fun hzero v hv ↦ ⟨r, hr, (hmem v).1 ?_⟩, fun hall ↦ ?_⟩⟩
    · simp only [hv, if_true, Option.some.injEq, exists_eq_left', ← hmem]
      split_ifs with hpost
      · simp only [hpost, iff_true]
        omega
      · simp [hpost]
    · have hperm := (hscan.nodup_postorder.subperm hsub).perm_of_length_le (by omega)
      exact hperm.mem_iff.2 hv
    · have hperm : (postorder r evs).Perm S.nodes := by
        rw [List.perm_ext_iff_of_nodup hscan.nodup_postorder hS.nodup_nodes]
        refine fun v ↦ ⟨fun hv ↦ hsub hv, fun hv ↦ ?_⟩
        obtain ⟨r', hr', hreach⟩ := hall v hv
        obtain rfl := Option.some.inj (hr.symm.trans hr')
        exact (hmem v).2 hreach
      rw [hperm.length_eq, sub_self]

/-- The state between two calls. -/
structure Inv (G : State) : Prop where
  wf : G.shape.WF
  lookups : Lookups G
  marks : MarksInv G.shape G.marks

/-- An empty graph. -/
theorem Inv.create : Inv .create where
  wf := .empty
  lookups := ⟨by simp [State.create, Shape.empty], by simp [State.create, Shape.empty]⟩
  marks := ⟨.fresh _, .of_flags_clear rfl⟩

/-- The sort at the start of a deletion, cached or not. -/
theorem Inv.sort_reach {G : State} (h : Inv G) {t : ℤ} {M : Marks}
    (hsort : topologicalSort G.shape G.marks = .ok (t, M)) :
    (t = 0 ↔ AllReachable G.shape) ∧ ((G.marks.flags.topoSort = true →
      ∃ t F, topologicalSort G.shape .fresh = .ok (t, F) ∧ G.marks.info = F.info) →
      ∀ v ∈ G.shape.nodes, M.info v ≠ -1 ↔
        ∃ r, G.shape.root = some r ∧ G.shape.Reach r v) := by
  by_cases hflag : G.marks.flags.topoSort = true
  · obtain ⟨rfl, rfl⟩ := Prod.mk.inj (Except.ok.inj ((topologicalSort_cached hflag).symm.trans hsort))
    obtain ⟨t', F, hF, hlist⟩ := h.marks.lists.topoSort hflag
    obtain ⟨hreach, ht', hzero⟩ := topologicalSort_reach h.wf hF
    refine ⟨?_, fun hinfo ↦ ?_⟩
    · rw [hlist, ← ht']
      exact hzero
    · obtain ⟨t'', F', hF', hinfo⟩ := hinfo hflag
      obtain ⟨-, rfl⟩ := Prod.mk.inj (Except.ok.inj (hF.symm.trans hF'))
      rw [hinfo]
      exact hreach
  · rw [Bool.not_eq_true] at hflag
    obtain ⟨F, T, hF, rfl, -⟩ := topologicalSort_fresh h.wf h.marks.outside hflag hsort
    obtain ⟨hreach, -, hzero⟩ := topologicalSort_reach h.wf hF
    exact ⟨hzero, fun _ ↦ hreach⟩

/-- With nothing to delete, deleting only forgets the topological order. -/
theorem Inv.deleteUnreachable_eq {G G' : State} (h : Inv G) (hall : AllReachable G.shape) {t : ℤ}
    (hrun : deleteUnreachable G = .ok (t, G')) :
    ∃ M, topologicalSort G.shape G.marks = .ok (0, M) ∧ G' = { G with marks := { M with
      flags := { M.flags with topoSort := false }, topoList := [] } } := by
  obtain ⟨⟨t', M⟩, hsort, hrest⟩ := Run.bind_eq_ok.1 hrun
  obtain rfl := (h.sort_reach hsort).1.2 hall
  simp only [if_true, Run.pure_eq_ok, Except.ok.injEq, Prod.mk.injEq] at hrest
  exact ⟨M, hsort, hrest.2.symm⟩

/-- With every node reachable there is nothing to delete from the lists. -/
theorem DeletedLists.of_allReachable (hS : S.WF) (hall : AllReachable S) : DeletedLists S S :=
  ⟨fun v ↦ ⟨fun hv ↦ ⟨hv, hall v hv⟩, And.left⟩, fun a ↦ ⟨fun ha ↦ ⟨ha, hS.arcPred_mem a ha⟩, And.left⟩,
    fun v _ a ↦ ⟨fun ha ↦ ⟨ha, hS.arcPred_mem a ((hS.mem_pred v a).1 ha).1⟩, And.left⟩⟩

/-- **Deleting takes exactly the unreachable nodes out of the lists**, as long as `info` has not been
overwritten since the sort, **and leaves the hash tables as they are**. -/
theorem Inv.deleteUnreachable_lists {G G' : State} (h : Inv G)
    (hinfo : G.marks.flags.topoSort = true →
      ∃ t F, topologicalSort G.shape .fresh = .ok (t, F) ∧ G.marks.info = F.info) {t : ℤ}
    (hrun : deleteUnreachable G = .ok (t, G')) :
    DeletedLists G.shape G'.shape ∧ G'.hashIdNode = G.hashIdNode ∧ G'.hashIdArc = G.hashIdArc := by
  obtain ⟨⟨t', M⟩, hsort, hrest⟩ := Run.bind_eq_ok.1 hrun
  obtain ⟨hzero, hreach⟩ := h.sort_reach hsort
  have hreach := hreach hinfo
  simp only at hrest
  split_ifs at hrest with ht
  · obtain ⟨-, rfl⟩ := Prod.mk.inj (Except.ok.inj hrest)
    exact ⟨.of_allReachable h.wf (hzero.1 ht), rfl, rfl⟩
  · rw [removeArcs_eq h.wf, Run.ok_bind] at hrest
    obtain ⟨-, rfl⟩ := Prod.mk.inj (Except.ok.inj hrest)
    refine ⟨?_, rfl, rfl⟩
    change DeletedLists G.shape (removeNodes M.info (G.shape.dropArcs _) _).1
    set D := G.shape.arcs.toFinset.filter fun a ↦ M.info (G.shape.arcPred a) = -1 with hD
    rw [removeNodes_eq (S := G.shape.dropArcs D) h.wf.nodup_nodes]
    have hsrc : ∀ a ∈ G.shape.arcs, M.info (G.shape.arcPred a) ≠ -1 ↔
        G.shape.arcPred a ∈ G.shape.nodes.filter (M.info · ≠ -1) := fun a ha ↦ by
      simp [h.wf.arcPred_mem a ha]
    refine ⟨fun v ↦ ?_, fun a ↦ ?_, fun v hv a ↦ ?_⟩
    · simp only [Shape.dropArcs, List.mem_filter, decide_eq_true_eq]
      exact and_congr_right (hreach v)
    · simp only [Shape.dropArcs]
      rw [List.mem_filter]
      refine and_congr_right fun ha ↦ ?_
      rw [← hsrc a ha]
      simp [hD, ha]
    · have hv' : ¬(v ∈ (G.shape.dropArcs D).nodes ∧ M.info v = -1) := by
        simp only [Shape.dropArcs, List.mem_filter, decide_eq_true_eq] at hv
        exact fun hi ↦ hv.2 hi.2
      simp only [if_neg hv']
      simp only [Shape.dropArcs]
      rw [List.mem_filter]
      refine and_congr_right fun ha ↦ ?_
      have harc := ((h.wf.mem_pred v a).1 ha).1
      rw [← hsrc a harc]
      simp [hD, harc]

/-- Forgetting the topological order leaves the rest right. -/
theorem MarksInv.forgetTopo (h : MarksInv S M) : MarksInv S { M with
    flags := { M.flags with topoSort := false }, topoList := [] } :=
  ⟨⟨h.outside.tflags, h.outside.info, h.outside.dom, h.outside.postDom⟩,
    ⟨h.lists.dom, h.lists.postDom, fun hflag ↦ absurd hflag Bool.false_ne_true,
      h.lists.dfsPreSort⟩⟩

/-! ### Runs -/

/-- A call of `Graph_delete_unreachable` finds every node reachable. -/
def DeletesNothing (G : State) : Op → Prop
  | .deleteUnreachable => AllReachable G.shape
  | _ => True

/-- A call that writes `info` finds no result of another analysis there, and a directed preorder sort
finds no arc flagged. -/
def OverwritesNothing (G : State) : Op → Prop
  | .deleteUnreachable | .topologicalSort => G.marks.flags.topoSort = false →
      G.marks.flags.dfsPreSort = false ∧ G.marks.flags.countPath = false
  | .preorderDfsSort directed => G.marks.flags.dfsPreSort = false →
      G.marks.flags.topoSort = false ∧ G.marks.flags.countPath = false ∧
        (directed = true → ∀ a ∈ G.shape.arcs, G.marks.backedge a = false)
  | .countPaths => G.marks.flags.countPath = false →
      G.marks.flags.topoSort = false ∧ G.marks.flags.dfsPreSort = false
  | _ => True

/-- A call of `Graph_preorder_dfs_sort` that finds a stored list asks for the mode of the call before. -/
def SameMode (G : State) (mode : Option Bool) : Op → Prop
  | .preorderDfsSort directed => G.marks.flags.dfsPreSort = true → mode = some directed
  | _ => True

/-- The mode that the last call of `Graph_preorder_dfs_sort` asked for. -/
def lastMode (mode : Option Bool) : Op → Option Bool
  | .preorderDfsSort directed => some directed
  | _ => mode

/-- An analysis that returns changes the marks only. -/
theorem analyse_eq_ok {G G' : State} {run : Run Marks} (h : G.analyse run = .ok G') :
    ∃ M, run = .ok M ∧ G' = { G with marks := M } := by
  cases run with
  | error e => simp [State.analyse] at h
  | ok M => exact ⟨M, rfl, (Except.ok.inj h).symm⟩

/-- An analysis stops as its run does. -/
theorem analyse_ne {G : State} {run : Run Marks} {e : Halt} (h : run ≠ .error e) :
    G.analyse run ≠ .error e := by
  cases run with
  | error e' => exact fun heq ↦ h (congrArg _ (Except.error.inj heq))
  | ok M => exact fun heq ↦ by cases heq

theorem map_snd_eq_ok {α β : Type} {run : Run (α × β)} {b : β} (h : Prod.snd <$> run = .ok b) :
    ∃ a, run = .ok (a, b) := by
  cases run with
  | error e => simp at h
  | ok p => exact ⟨p.1, by rw [← Except.ok.inj h]⟩

/-- A new node keeps the invariant, with all flags clear. -/
theorem Inv.createGraphNodeGivenId {G G' : State} {newId : Id} (h : Inv G)
    (hrun : createGraphNodeGivenId newId G = .ok G') : Inv G' ∧ G'.marks.flags = {} := by
  rw [Graph.createGraphNodeGivenId] at hrun
  split_ifs at hrun with hid
  obtain rfl := Except.ok.inj hrun
  have hnot : newId ∉ G.shape.nodes := fun hmem ↦ hid ((h.lookups.node newId).2 hmem)
  refine ⟨⟨h.wf.createNode_root hnot, ⟨fun id ↦ ?_, h.lookups.arc⟩, ⟨?_, .of_flags_clear rfl⟩⟩, rfl⟩
  · rw [Finset.mem_insert, h.lookups.node, Shape.createNode, List.mem_append, List.mem_singleton,
      or_comm]
  · have hne : ∀ v, v ∉ G.shape.nodes ++ [newId] → v ∉ G.shape.nodes ∧ v ≠ newId := by
      intro v hv
      rw [List.mem_append, not_or, List.mem_singleton] at hv
      exact hv
    refine ⟨fun v hv ↦ ?_, fun v hv ↦ ?_, fun v hv ↦ ?_, fun v hv ↦ ?_⟩
    · exact (Function.update_of_ne (hne v hv).2 _ _).trans (h.marks.outside.tflags v (hne v hv).1)
    · exact (Function.update_of_ne (hne v hv).2 _ _).trans (h.marks.outside.info v (hne v hv).1)
    · exact (Function.update_of_ne (hne v hv).2 _ _).trans (h.marks.outside.dom v (hne v hv).1)
    · exact (Function.update_of_ne (hne v hv).2 _ _).trans (h.marks.outside.postDom v (hne v hv).1)

/-- So does a new arc. -/
theorem Inv.connectNodes {G G' : State} {src dest : Id} (h : Inv G)
    (hrun : connectNodes src dest G = .ok G') : Inv G' ∧ G'.marks.flags = {} := by
  simp only [Graph.connectNodes] at hrun
  split_ifs at hrun with hends hid
  obtain rfl := Except.ok.inj hrun
  rw [not_or, not_not, not_not] at hends
  have hnot : G.arcId + 1 ∉ G.shape.arcs := fun hmem ↦ hid ((h.lookups.arc _).2 hmem)
  refine ⟨⟨h.wf.connectNodes hnot hends.1 hends.2, ⟨h.lookups.node, fun id ↦ ?_⟩,
    ⟨⟨h.marks.outside.tflags, h.marks.outside.info, h.marks.outside.dom, h.marks.outside.postDom⟩,
      .of_flags_clear rfl⟩⟩, rfl⟩
  rw [Finset.mem_insert, h.lookups.arc, Shape.connectNodes, List.mem_append, List.mem_singleton,
    or_comm]

/-- **A call keeps the invariant** when a deletion has nothing to delete; and the shared fields stay
right when nothing is overwritten in them and the mode stays the same. -/
theorem Inv.exec {G G' : State} {op : Op} (h : Inv G) (hcond : DeletesNothing G op)
    (hexec : exec G op = .ok G') :
    Inv G' ∧ ∀ mode, SharedCached G.shape G.marks mode → OverwritesNothing G op → SameMode G mode op →
      SharedCached G'.shape G'.marks (lastMode mode op) := by
  cases op with
  | createGraphNode =>
    obtain ⟨hinv, hflags⟩ := Inv.createGraphNodeGivenId
      (G := { G with nodeId := G.nodeId + 1 }) ⟨h.wf, ⟨h.lookups.node, h.lookups.arc⟩, h.marks⟩ hexec
    exact ⟨hinv, fun _ _ _ _ ↦ .of_flags_clear hflags⟩
  | createGraphNodeGivenId newId =>
    obtain ⟨hinv, hflags⟩ := h.createGraphNodeGivenId hexec
    exact ⟨hinv, fun _ _ _ _ ↦ .of_flags_clear hflags⟩
  | connectNodes src dest =>
    obtain ⟨hinv, hflags⟩ := h.connectNodes hexec
    exact ⟨hinv, fun _ _ _ _ ↦ .of_flags_clear hflags⟩
  | deleteUnreachable =>
    obtain ⟨t, hrun⟩ := map_snd_eq_ok hexec
    obtain ⟨M, hsort, rfl⟩ := h.deleteUnreachable_eq hcond hrun
    obtain ⟨hmarks, hshared⟩ := h.marks.topologicalSort h.wf hsort
    refine ⟨⟨h.wf, ⟨h.lookups.node, h.lookups.arc⟩, hmarks.forgetTopo⟩, fun mode hs hother _ ↦ ?_⟩
    have hs' := hshared mode hs hother
    exact ⟨fun hflag ↦ absurd hflag Bool.false_ne_true, hs'.dfsPreSort, hs'.countPath⟩
  | dominator =>
    obtain ⟨M, hrun, rfl⟩ := analyse_eq_ok hexec
    obtain ⟨hmarks, hshared⟩ := h.marks.dominator h.wf hrun
    exact ⟨⟨h.wf, ⟨h.lookups.node, h.lookups.arc⟩, hmarks⟩, fun mode hs _ _ ↦ hshared mode hs⟩
  | postDominator =>
    obtain ⟨M, hrun, rfl⟩ := analyse_eq_ok hexec
    obtain ⟨hmarks, hshared⟩ := h.marks.postDominator h.wf hrun
    exact ⟨⟨h.wf, ⟨h.lookups.node, h.lookups.arc⟩, hmarks⟩, fun mode hs _ _ ↦ hshared mode hs⟩
  | topologicalSort =>
    obtain ⟨M, hrun, rfl⟩ := analyse_eq_ok hexec
    obtain ⟨t, hrun⟩ := map_snd_eq_ok hrun
    obtain ⟨hmarks, hshared⟩ := h.marks.topologicalSort h.wf hrun
    exact ⟨⟨h.wf, ⟨h.lookups.node, h.lookups.arc⟩, hmarks⟩, fun mode hs hother _ ↦ hshared mode hs hother⟩
  | preorderDfsSort directed =>
    obtain ⟨M, hrun, rfl⟩ := analyse_eq_ok hexec
    obtain ⟨hmarks, hshared⟩ := h.marks.preorderDfsSort h.wf hrun
    exact ⟨⟨h.wf, ⟨h.lookups.node, h.lookups.arc⟩, hmarks⟩, hshared⟩
  | countPaths =>
    obtain ⟨M, hrun, rfl⟩ := analyse_eq_ok hexec
    obtain ⟨hmarks, hshared⟩ := h.marks.countPaths h.wf hrun
    exact ⟨⟨h.wf, ⟨h.lookups.node, h.lookups.arc⟩, hmarks⟩, fun mode hs hother _ ↦ hshared mode hs hother⟩

/-- **The sets, the lists and the lookups are right** in every run whose deletions have nothing to
delete. -/
theorem Reachable.inv {G : State} (h : Reachable DeletesNothing G) : Inv G := by
  induction h with
  | create => exact .create
  | call _ hcond hexec ih => exact (ih.exec hcond hexec).1

/-- When every call finds nothing to delete, overwrites nothing and asks for the same mode. -/
def CallCondition (G : State) (mode : Option Bool) (op : Op) : Prop :=
  DeletesNothing G op ∧ OverwritesNothing G op ∧ SameMode G mode op

/-- The graphs that calls meeting the condition lead to, with the mode that the last call of
`Graph_preorder_dfs_sort` asked for. -/
inductive ReachedIn : State → Option Bool → Prop
  | create : ReachedIn .create none
  | call {G G' mode op} (h : ReachedIn G mode) (hcond : CallCondition G mode op)
      (hexec : exec G op = .ok G') : ReachedIn G' (lastMode mode op)

/-- The mode may be forgotten. -/
theorem ReachedIn.reachable {G : State} {mode : Option Bool} (h : ReachedIn G mode) :
    Reachable DeletesNothing G := by
  induction h with
  | create => exact .create
  | call _ hcond hexec ih => exact .call ih hcond.1 hexec

/-- **The shared fields are right** in every run that meets the condition. -/
theorem ReachedIn.shared {G : State} {mode : Option Bool} (h : ReachedIn G mode) :
    SharedCached G.shape G.marks mode := by
  induction h with
  | create => exact .of_flags_clear rfl
  | call h hcond hexec ih => exact (h.reachable.inv.exec hcond.1 hexec).2 _ ih hcond.2.1 hcond.2.2

/-- The sort of a graph with a root returns; without one there is nothing to start from. -/
theorem topologicalSort_total (hS : S.WF) (M : Marks) :
    (∃ t M', topologicalSort S M = .ok (t, M')) ∨
      S.root = none ∧ topologicalSort S M = .error .fault := by
  by_cases hflag : M.flags.topoSort = true
  · exact .inl ⟨_, _, topologicalSort_cached hflag⟩
  rw [Bool.not_eq_true] at hflag
  cases hr : S.root with
  | none => exact .inr ⟨rfl, by simp [topologicalSort, hflag, Shape.getRoot, hr]⟩
  | some r =>
    obtain ⟨_, _, _, -, hsort, -⟩ := topologicalSort_spec hS hr hflag
    exact .inl ⟨_, _, hsort⟩

/-- A deletion returns once its sort has. -/
theorem deleteUnreachable_total {G : State} (hS : G.shape.WF) {t : ℤ} {M : Marks}
    (hsort : topologicalSort G.shape G.marks = .ok (t, M)) :
    ∃ t G', deleteUnreachable G = .ok (t, G') := by
  rw [deleteUnreachable, hsort, Run.ok_bind]
  simp only [removeArcs_eq hS, Run.ok_bind]
  split_ifs
  · exact ⟨_, _, rfl⟩
  · exact ⟨_, _, rfl⟩

/-- **Every call ends**: the fuel of its recursions suffices. -/
theorem Inv.exec_ne_outOfFuel {G : State} (h : Inv G) (op : Op) :
    Graph.exec G op ≠ .error .outOfFuel := by
  have hnode : ∀ id (G : State), Graph.createGraphNodeGivenId id G ≠ .error .outOfFuel := by
    intro id G
    rw [Graph.createGraphNodeGivenId]
    split_ifs <;> simp
  have hroot : G.shape.root = none → G.shape.getRoot = .error .fault := fun hr ↦ by
    rw [Shape.getRoot, hr]
  obtain ⟨D, -, -, hD⟩ := dominator_fresh h.wf h.marks.outside h.marks.lists.dom
  cases op with
  | createGraphNode => exact hnode _ _
  | createGraphNodeGivenId newId => exact hnode newId G
  | connectNodes src dest =>
    simp only [Graph.exec, Graph.connectNodes]
    split_ifs <;> simp
  | deleteUnreachable =>
    obtain ⟨t, M, hsort⟩ | ⟨-, hsort⟩ := topologicalSort_total h.wf G.marks
    · obtain ⟨t, G', hrun⟩ := deleteUnreachable_total h.wf hsort
      simp [Graph.exec, hrun]
    · simp [Graph.exec, Graph.deleteUnreachable, hsort]
  | dominator => simp [Graph.exec, State.analyse, hD]
  | postDominator =>
    obtain ⟨P, -, -, hP⟩ := postDominator_fresh h.wf h.marks.outside h.marks.lists.postDom
    simp [Graph.exec, State.analyse, hP]
  | topologicalSort =>
    obtain ⟨t, M, hsort⟩ | ⟨-, hsort⟩ := topologicalSort_total h.wf G.marks
    · simp [Graph.exec, State.analyse, hsort]
    · simp [Graph.exec, State.analyse, hsort]
  | preorderDfsSort directed =>
    by_cases hflag : G.marks.flags.dfsPreSort = true
    · simp [Graph.exec, State.analyse, Graph.preorderDfsSort, hflag]
    rw [Bool.not_eq_true] at hflag
    cases hr : G.shape.root with
    | none => simp [Graph.exec, State.analyse, Graph.preorderDfsSort, hflag, hD, hroot hr]
    | some r =>
      obtain ⟨_, _, _, _, _, -, -, hrun, -⟩ := preorderDfsSort_spec h.wf directed hr hflag
      simp [Graph.exec, State.analyse, hrun]
  | countPaths =>
    by_cases hflag : G.marks.flags.countPath = true
    · simp [Graph.exec, State.analyse, Graph.countPaths, hflag]
    rw [Bool.not_eq_true] at hflag
    cases hr : G.shape.root with
    | none => simp [Graph.exec, State.analyse, Graph.countPaths, hflag, hD, hroot hr]
    | some r =>
      have hvisit : ∀ (N : Marks) (f : Counts → Marks),
          (f <$> countPathsVisit G.shape D.dom G.shape.fuel r (countsInit G.shape r N)) ≠
            .error .outOfFuel := by
        intro N f
        obtain hover | ⟨c, hc, -⟩ := countPathsVisit_root h.wf D.dom (h.wf.root_mem r hr) N
        · simp [hover]
        · simp [hc]
      have hrun : countPaths G.shape G.marks ≠ .error .outOfFuel := by
        rw [Graph.countPaths, hflag, if_neg Bool.false_ne_true, hD, Run.ok_bind, Shape.getRoot, hr,
          Run.ok_bind]
        exact hvisit _ _
      exact analyse_ne hrun

/-- **Stored results are fresh results** in every run whose calls find nothing to delete, overwrite
nothing and do not change the mode of the preorder sort; and in each state of such a run a deletion
deletes what is unreachable from the lists, and from the lookups exactly when nothing is. -/
theorem cached_of_reachable {G : State} {mode : Option Bool} (h : ReachedIn G mode) :
    ListsCached G.shape G.marks ∧ SharedCached G.shape G.marks mode ∧ Lookups G ∧
      ∀ r, G.shape.root = some r → ∃ G', exec G .deleteUnreachable = .ok G' ∧
        DeletedLists G.shape G'.shape ∧ (Lookups G' ↔ AllReachable G.shape) := by
  have hinv := h.reachable.inv
  refine ⟨hinv.marks.lists, h.shared, hinv.lookups, fun r hr ↦ ?_⟩
  obtain ⟨t, M, hsort⟩ := (topologicalSort_total hinv.wf G.marks).resolve_right fun hnone ↦ by
    simp [hr] at hnone
  obtain ⟨t, G', hrun⟩ := deleteUnreachable_total hinv.wf hsort
  obtain ⟨hlists, hnode, harc⟩ := hinv.deleteUnreachable_lists h.shared.topoSort hrun
  refine ⟨G', by rw [exec, hrun, Run.map_ok], hlists, fun hlook v hv ↦ ?_, fun hall ↦ ?_⟩
  · have hid : v ∈ G'.hashIdNode := hnode ▸ (hinv.lookups.node v).2 hv
    exact ((hlists.nodes v).1 ((hlook.node v).1 hid)).2
  · obtain ⟨M, -, rfl⟩ := hinv.deleteUnreachable_eq hall hrun
    exact ⟨hinv.lookups.node, hinv.lookups.arc⟩

/-- Two nodes with arcs both ways: a sort that a deletion forgets, then two preorder sorts in the same mode. -/
theorem cached_of_reachable_arc :
    ∃ G, [Op.createGraphNode, .createGraphNode, .connectNodes 1 2, .connectNodes 2 1, .topologicalSort,
        .deleteUnreachable, .preorderDfsSort true, .preorderDfsSort true].foldlM exec .create = .ok G ∧
      G.marks.flags.dfsPreSort = true ∧ ListsCached G.shape G.marks ∧
      SharedCached G.shape G.marks (some true) ∧ Lookups G ∧
      ∀ r, G.shape.root = some r → ∃ G', exec G .deleteUnreachable = .ok G' ∧
        DeletedLists G.shape G'.shape ∧ (Lookups G' ↔ AllReachable G.shape) := by
  refine ⟨_, rfl, rfl, cached_of_reachable ?_⟩
  have hnode :=
    ReachedIn.call .create (show CallCondition _ none .createGraphNode from ⟨trivial, trivial, trivial⟩) rfl
  have hnodes :=
    ReachedIn.call hnode (show CallCondition _ none .createGraphNode from ⟨trivial, trivial, trivial⟩) rfl
  have harc :=
    ReachedIn.call hnodes (show CallCondition _ none (.connectNodes 1 2) from ⟨trivial, trivial, trivial⟩) rfl
  have harcs :=
    ReachedIn.call harc (show CallCondition _ none (.connectNodes 2 1) from ⟨trivial, trivial, trivial⟩) rfl
  have hsort :=
    ReachedIn.call harcs (show CallCondition _ none .topologicalSort from ⟨trivial, fun _ ↦ ⟨rfl, rfl⟩, trivial⟩) rfl
  have hdelete :=
    ReachedIn.call hsort (show CallCondition _ none .deleteUnreachable from
      ⟨List.forall_iff_forall_mem.1 ⟨⟨1, rfl, .refl⟩, ⟨1, rfl, .single ⟨1, by decide, rfl⟩⟩⟩,
        fun h ↦ absurd h (by decide), trivial⟩) rfl
  have hpre :=
    ReachedIn.call hdelete (show CallCondition _ none (.preorderDfsSort true) from
      ⟨trivial, fun _ ↦ ⟨rfl, rfl, fun _ ↦ by decide⟩, fun h ↦ absurd h (by decide)⟩) rfl
  exact .call hpre (show CallCondition _ (some true) (.preorderDfsSort true) from
    ⟨trivial, fun h ↦ absurd h (by decide), fun _ ↦ rfl⟩) rfl

/-- Two nodes without an arc. A deletion takes node 2 out of the list but not out of its hash table;
and when the paths have been counted since the topological sort, it does not even find node 2, since
`info` has the counts. With an arc from node 2 to the root, an undirected sort reaches node 2, and a directed
one after it leaves its list in place. -/
theorem not_cached_of_run :
    (∃ G G', [Op.createGraphNode, .createGraphNode].foldlM exec .create = .ok G ∧
      exec G .deleteUnreachable = .ok G' ∧ 2 ∉ G'.shape.nodes ∧ 2 ∈ G'.hashIdNode ∧ ¬Lookups G') ∧
    (∃ G G', [Op.createGraphNode, .createGraphNode, .topologicalSort, .countPaths].foldlM exec
        .create = .ok G ∧ exec G .deleteUnreachable = .ok G' ∧
      (∀ mode, ¬SharedCached G.shape G.marks mode) ∧ ¬G.shape.Reach 1 2 ∧ 2 ∈ G'.shape.nodes) ∧
    ∃ G F, [Op.createGraphNode, .createGraphNode, .connectNodes 2 1, .preorderDfsSort false,
        .preorderDfsSort true].foldlM exec .create = .ok G ∧
      preorderDfsSort G.shape true .fresh = .ok F ∧ G.marks.dfsList ≠ F.dfsList := by
  refine ⟨⟨_, _, rfl, rfl, by decide, by decide, fun h ↦ ?_⟩,
    ⟨_, _, rfl, rfl, fun _ h ↦ ?_, fun h ↦ ?_, by decide⟩, ⟨_, _, rfl, rfl, by decide⟩⟩
  · exact absurd ((h.node 2).1 (by decide)) (by decide)
  · obtain ⟨t, F, hF, hinfo⟩ := h.topoSort rfl
    obtain ⟨-, rfl⟩ := Prod.mk.inj (Except.ok.inj hF)
    exact absurd (congrFun hinfo 2) (by decide)
  · obtain ⟨v, ⟨a, ha, -⟩, -⟩ := h.cases_head.resolve_left (by decide)
    exact List.not_mem_nil ha

end OpenImpact.Graph
