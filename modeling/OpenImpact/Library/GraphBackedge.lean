import OpenImpact.Library.GraphBuild
import OpenImpact.Library.GraphDfs

/-!
# Back-edges

What `Graph_preorder_dfs_sort` with `directed` set says about a graph through `GRAPH_ARC_BACKEDGE`
and `dfs_list`, and what a second `Graph_preorder_dfs_visit` of the root, as `ILP_init` makes it,
leaves of that: the flags stay, and `dfs_list` gets every node a second time.

`preorderDfsSort_visit` rests on `Foundation.Dfs`, where a traversal is a sequence of events and the
arcs back are those to an ancestor: each cycle has one, and each lies on a cycle. It is for any
graph and root, on arcs without flags. The ids are natural numbers, as everywhere in this part:
`Graph_dominator`, which the sort calls, need not end on a graph with two negative ids, and nothing
is claimed there.
-/

namespace OpenImpact.Graph

open Foundation.Dfs

/-- A walk along arcs of a graph. -/
abbrev Shape.Walk (S : Shape) : Id → List Id → Id → Prop := ArcWalk S.succ S.arcSucc

/-- Reachability along arcs of a graph. -/
abbrev Shape.Reach (S : Shape) : Id → Id → Prop := Relation.ReflTransGen (Arc S.succ S.arcSucc)

variable {S : Shape}

/-! ### The flags -/

/-- The flags mark the arcs to ancestors in the tree of the traversal `evs` from `r`, and cut every
cycle. -/
structure BackedgesMarked (S : Shape) (r : Id) (evs : List (Event Id Id)) (M : Marks) : Prop where
  /-- Every cycle reachable from the root has a flagged arc. -/
  cycle : ∀ v l, S.Reach r v → S.Walk v l v → l ≠ [] → ∃ a ∈ l, M.backedge a = true
  /-- The target of a flagged arc is an ancestor of its source, or the source itself. -/
  ancestor : ∀ a ∈ S.arcs, M.backedge a = true →
    Ancestor S.arcSucc evs (S.arcSucc a) (S.arcPred a)
  /-- A flagged arc lies on a cycle. -/
  on_cycle : ∀ a ∈ S.arcs, M.backedge a = true → ∃ l, S.Walk (S.arcPred a) (a :: l) (S.arcPred a)

/-- `dfs_list` has every reachable node `n` times, and no other. -/
def ListsReachable (S : Shape) (r : Id) (n : ℕ) (M : Marks) : Prop :=
  ∀ v, (S.Reach r v → M.dfsList.count v = n) ∧ (¬S.Reach r v → M.dfsList.count v = 0)

variable (hS : S.WF) {r : Id} {evs : List (Event Id Id)} {V : Set Id}

include hS in
theorem Shape.Walk.mem_arcs {v w : Id} {l : List Id} (h : S.Walk v l w) : ∀ a ∈ l, a ∈ S.arcs := by
  induction h with
  | nil => simp
  | cons he _ ih => exact List.forall_mem_cons.2 ⟨((hS.mem_succ _ _).1 he).1, ih⟩

include hS in
/-- Flagging the back arcs of a traversal marks the back-edges. -/
theorem backedgesMarked_of_scan (h : Scan S.succ S.arcSucc r [r] {r} (S.succ r) evs V) {M : Marks}
    (hback : ∀ a ∈ S.arcs, M.backedge a = true ↔ ∃ x, .back x a ∈ evs) :
    BackedgesMarked S r evs M := by
  have hanc : ∀ a ∈ S.arcs, M.backedge a = true →
      Ancestor S.arcSucc evs (S.arcSucc a) (S.arcPred a) := by
    intro a ha hflag
    obtain ⟨x, hx⟩ := (hback a ha).1 hflag
    rw [((hS.mem_succ x a).1 (h.mem_out_of_back (fun _ h ↦ h) hx)).2]
    exact h.ancestor_of_back_root hx
  refine ⟨fun v l hv hl hne ↦ ?_, hanc, fun a ha hflag ↦ ?_⟩
  · obtain ⟨a, ha, hx⟩ := h.exists_back_of_cycle hl hne hv
    exact ⟨a, ha, (hback a (hl.mem_arcs hS a ha)).2 hx⟩
  · have hreach : S.Reach (S.arcSucc a) (S.arcPred a) := by
      refine Relation.ReflTransGen.mono ?_ _ _ (hanc a ha hflag)
      rintro x _ ⟨e, he, rfl⟩
      exact ⟨e, h.mem_out_of_enter (fun _ h ↦ h) he, rfl⟩
    obtain ⟨l, hl⟩ := exists_arcWalk hreach
    exact ⟨l, .cons ((hS.mem_succ _ a).2 ⟨ha, rfl⟩) hl⟩

theorem count_preorder (h : Scan S.succ S.arcSucc r [r] {r} (S.succ r) evs V) (v : Id) :
    (S.Reach r v → (preorder S.arcSucc r evs).count v = 1) ∧
      (¬S.Reach r v → (preorder S.arcSucc r evs).count v = 0) := by
  have hmem : v ∈ preorder S.arcSucc r evs ↔ S.Reach r v := h.mem_preorder_iff_reach
  exact ⟨fun hv ↦ List.count_eq_one_of_mem h.nodup_preorder (hmem.2 hv),
    fun hv ↦ List.count_eq_zero_of_not_mem (hmem.not.2 hv)⟩

/-- A directed traversal goes along the arcs of the graph. -/
theorem exists_scan_of_directed {evs' : List (Event Id (Id × Bool))}
    (h : Scan (dfsOut S true) (dfsDst S) r [r] {r} (dfsOut S true r) evs' V) :
    ∃ evs, Scan S.succ S.arcSucc r [r] {r} (S.succ r) evs V ∧
      preorder (dfsDst S) r evs' = preorder S.arcSucc r evs ∧
      ∀ x a, .back x (a, true) ∈ evs' ↔ .back x a ∈ evs := by
  have hout : ∀ v, dfsOut S true v = (S.succ v).map (·, true) := fun v ↦ by simp [dfsOut]
  obtain ⟨evs, rfl, hscan⟩ := h.exists_of_map (f := (·, true)) hout (fun _ ↦ rfl) (hout r)
  refine ⟨evs, hscan, ?_, fun x a ↦ back_mem_map (Prod.mk_left_injective true)⟩
  have hentered : entered (dfsDst S) (evs.map (Event.map (·, true))) = entered S.arcSucc evs :=
    entered_map (fun _ ↦ rfl) evs
  rw [preorder, hentered, preorder]

include hS in
/-- The sort and the visit after it follow the same traversal. -/
theorem preorderDfsSort_visit_scan (hr : S.root = some r) {M : Marks}
    (hflag : M.flags.dfsPreSort = false) (hfresh : ∀ a ∈ S.arcs, M.backedge a = false) :
    ∃ evs V M₁ M₂, Scan S.succ S.arcSucc r [r] {r} (S.succ r) evs V ∧
      preorderDfsSort S true M = .ok M₁ ∧ preorderDfsVisit S true S.fuel r M₁ = .ok M₂ ∧
      M₁.dfsList = preorder S.arcSucc r evs ∧
      M₂.dfsList = preorder S.arcSucc r evs ++ preorder S.arcSucc r evs ∧
      M₂.topoList = M.topoList ∧
      (∀ a ∈ S.arcs, M₁.backedge a = true ↔ ∃ x, .back x a ∈ evs) ∧
      ∀ a ∈ S.arcs, M₂.backedge a = true ↔ ∃ x, .back x a ∈ evs := by
  obtain ⟨evs', V, T, B, dom, hscan', -, hsort, hwhite, -, hB⟩ := preorderDfsSort_spec hS true hr hflag
  obtain ⟨evs'', V'', T', B', hscan'', hvisit, -, -, hB'⟩ :=
    preorderDfsVisit_spec hS true (hS.root_mem r hr) (M := { M with
      flags := { M.flags with dom := true, dfsPreSort := true }
      tflags := T
      info := fun v ↦ if v ∈ preorder (dfsDst S) r evs'
        then ((preorder (dfsDst S) r evs').idxOf v : ℤ) + 1
        else if v ∈ S.nodes then -1 else M.info v
      dom := dom
      backedge := B
      dfsList := preorder (dfsDst S) r evs' }) hwhite
  obtain ⟨rfl, rfl⟩ := hscan'.unique hscan''
  obtain ⟨evs, hscan, hpre, hback⟩ := exists_scan_of_directed hscan'
  have hfirst : ∀ a ∈ S.arcs, B a = true ↔ ∃ x, .back x a ∈ evs := fun a ha ↦ by
    simp [hB, hfresh a ha, hback]
  refine ⟨evs, V, _, _, hscan, hsort, hvisit, hpre, ?_, rfl, hfirst, fun a ha ↦ ?_⟩
  · exact congrArg₂ (· ++ ·) hpre hpre
  · simp [hB', hfirst a ha, hback]

include hS in
/-- **The preorder sort marks the back-edges, and a second visit changes no flag.** `dfs_list` has
every reachable node once after the sort and twice after the visit. -/
theorem preorderDfsSort_visit (hr : S.root = some r) {M : Marks}
    (hflag : M.flags.dfsPreSort = false) (hfresh : ∀ a ∈ S.arcs, M.backedge a = false) :
    ∃ evs V M₁ M₂, Scan S.succ S.arcSucc r [r] {r} (S.succ r) evs V ∧
      preorderDfsSort S true M = .ok M₁ ∧ preorderDfsVisit S true S.fuel r M₁ = .ok M₂ ∧
      BackedgesMarked S r evs M₁ ∧ ListsReachable S r 1 M₁ ∧
      BackedgesMarked S r evs M₂ ∧ ListsReachable S r 2 M₂ := by
  obtain ⟨evs, V, M₁, M₂, hscan, hsort, hvisit, hlist₁, hlist₂, -, hback₁, hback₂⟩ :=
    preorderDfsSort_visit_scan hS hr hflag hfresh
  refine ⟨evs, V, M₁, M₂, hscan, hsort, hvisit, backedgesMarked_of_scan hS hscan hback₁,
    fun v ↦ ?_, backedgesMarked_of_scan hS hscan hback₂, fun v ↦ ⟨fun hv ↦ ?_, fun hv ↦ ?_⟩⟩
  · rw [hlist₁]
    exact count_preorder hscan v
  · simp [hlist₂, (count_preorder hscan v).1 hv]
  · simp [hlist₂, (count_preorder hscan v).2 hv]

/-- Two blocks in a loop, the second one with a loop of its own. -/
def twoLoops : Shape := createCbGraph [(1, [2]), (2, [2, 1])]

theorem preorderDfsSort_visit_twoLoops :
    ∃ evs V M₁ M₂, Scan twoLoops.succ twoLoops.arcSucc 1 [1] {1} (twoLoops.succ 1) evs V ∧
      preorderDfsSort twoLoops true .fresh = .ok M₁ ∧
      preorderDfsVisit twoLoops true twoLoops.fuel 1 M₁ = .ok M₂ ∧
      BackedgesMarked twoLoops 1 evs M₁ ∧ ListsReachable twoLoops 1 1 M₁ ∧
      BackedgesMarked twoLoops 1 evs M₂ ∧ ListsReachable twoLoops 1 2 M₂ :=
  preorderDfsSort_visit (createCbGraph_wf (by decide) (by decide)) rfl rfl fun _ _ ↦ rfl

/-- The second visit breaks the promise that `dfs_list` has every reachable node once: block 2 is in
it twice. -/
theorem not_listsReachable_after_visit :
    ∃ M₁ M₂, preorderDfsSort twoLoops true .fresh = .ok M₁ ∧
      preorderDfsVisit twoLoops true twoLoops.fuel 1 M₁ = .ok M₂ ∧
      M₂.dfsList = [1, 2, 1, 2] ∧ twoLoops.Reach 1 2 ∧ ¬ListsReachable twoLoops 1 1 M₂ := by
  have hreach : twoLoops.Reach 1 2 := .single ⟨1, by decide, rfl⟩
  refine ⟨_, _, rfl, rfl, rfl, hreach, fun h ↦ ?_⟩
  exact absurd ((h 2).1 hreach) (by decide)

end OpenImpact.Graph
