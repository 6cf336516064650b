import OpenImpact.Library.GraphBackedge
import OpenImpact.Library.GraphOps

/-!
# Deleting nodes

What the two loops of `Graph_delete_unreachable` take out of the lists, for any set of nodes marked
with `info` -1: the arcs out of these nodes, from the arc list and the `pred` lists (`removeArcs_eq`),
and the nodes themselves (`removeNodes_eq`). If no arc leads to them from another node, the graph that
remains is well formed, and so it is after a deletion that sorts the graph itself
(`deleteUnreachable_wf`). With a sort from before, the marks need not be those of the graph; what a run
of calls leaves then is in `GraphCache`.
-/

namespace OpenImpact.Graph

open Foundation Foundation.Dfs

variable {S : Shape} (hS : S.WF)

/-! ### The two loops -/

/-- The shape without some arcs, still in the `succ` lists. -/
def Shape.dropArcs (D : Finset Id) (S : Shape) : Shape :=
  { S with
    pred := fun v ↦ (S.pred v).filter (· ∉ D)
    arcs := S.arcs.filter (· ∉ D) }

/-- `List_remove` of an element of a list without repetitions. -/
theorem listRemove_filter {l : List Id} (hl : l.Nodup) {D : Finset Id} {a : Id} (ha : a ∈ l)
    (haD : a ∉ D) :
    listRemove a (l.filter (· ∉ D)) = .ok (l.filter (· ∉ insert a D)) := by
  have hmem : a ∈ l.filter (· ∉ D) := List.mem_filter.2 ⟨ha, by simpa using haD⟩
  have hne : l.filter (· ∉ D) ≠ [] := List.ne_nil_of_mem hmem
  rw [listRemove, if_neg hne, if_pos hmem, (hl.filter _).erase_eq_filter, List.filter_filter]
  refine congrArg Except.ok (List.filter_congr fun b _ ↦ ?_)
  by_cases hba : b = a <;> by_cases hbD : b ∈ D <;> simp [hba, hbD]

include hS in
theorem removeArc_dropArcs {D : Finset Id} {a : Id} (ha : a ∈ S.arcs) (haD : a ∉ D) :
    removeArc (S.dropArcs D) a = .ok (S.dropArcs (insert a D)) := by
  have hpred : a ∈ S.pred (S.arcSucc a) := (hS.mem_pred _ a).2 ⟨ha, rfl⟩
  rw [removeArc]
  simp only [Shape.dropArcs]
  rw [listRemove_filter (hS.nodup_pred _) hpred haD, Run.ok_bind,
    listRemove_filter hS.nodup_arcs ha haD, Run.ok_bind, Run.pure_eq_ok, Except.ok.injEq]
  congr 1
  funext v
  by_cases hv : v = S.arcSucc a
  · subst hv
    simp
  · -- `a` is in no other `pred` list
    rw [Function.update_of_ne hv]
    refine List.filter_congr fun b hb ↦ ?_
    have hba : b ≠ a := by
      rintro rfl
      exact hv ((hS.mem_pred v b).1 hb).2.symm
    simp [hba]

include hS in
/-- The loop over the arcs out of one node. -/
theorem foldlM_removeArc {l : List Id} (hl : l.Nodup) (harcs : ∀ a ∈ l, a ∈ S.arcs) {D : Finset Id}
    (hD : ∀ a ∈ l, a ∉ D) :
    l.foldlM removeArc (S.dropArcs D) = .ok (S.dropArcs (D ∪ l.toFinset)) := by
  induction l generalizing D with
  | nil => simp [List.foldlM]
  | cons a l ih =>
    rw [List.forall_mem_cons] at harcs hD
    obtain ⟨ha, hl⟩ := List.nodup_cons.1 hl
    rw [List.foldlM_cons, removeArc_dropArcs hS harcs.1 hD.1, Run.ok_bind, ih hl harcs.2]
    · rw [List.toFinset_cons, Finset.insert_union, Finset.union_insert]
    · intro b hb hmem
      rcases Finset.mem_insert.1 hmem with rfl | hmem
      · exact ha hb
      · exact hD.2 b hb hmem

include hS in
/-- **The first loop** takes the arcs out of the marked nodes. -/
theorem removeArcs_eq (info : Id → ℤ) :
    removeArcs info S =
      .ok (S.dropArcs (S.arcs.toFinset.filter fun a ↦ info (S.arcPred a) = -1)) := by
  have hloop : ∀ (l : List Id) (D : Finset Id), l.Nodup → (∀ v ∈ l, ∀ a ∈ S.succ v, a ∉ D) →
      l.foldlM (fun S node ↦
        if info node ≠ -1 then (.ok S : Run Shape) else (S.succ node).foldlM removeArc S)
        (S.dropArcs D) =
      .ok (S.dropArcs (D ∪ S.arcs.toFinset.filter fun a ↦
        S.arcPred a ∈ l ∧ info (S.arcPred a) = -1)) := by
    intro l
    induction l with
    | nil => exact fun D _ _ ↦ by simp [List.foldlM]
    | cons v l ih =>
      intro D hl hD
      rw [List.forall_mem_cons] at hD
      obtain ⟨hv, hl⟩ := List.nodup_cons.1 hl
      rw [List.foldlM_cons]
      by_cases hinfo : info v = -1
      · have harcs : ∀ a ∈ (S.dropArcs D).succ v, a ∈ S.arcs := fun a ha ↦
          ((hS.mem_succ v a).1 ha).1
        have hfold : ((S.dropArcs D).succ v).foldlM removeArc (S.dropArcs D) =
            .ok (S.dropArcs (D ∪ (S.succ v).toFinset)) :=
          foldlM_removeArc hS (hS.nodup_succ v) harcs hD.1
        rw [if_neg (not_not.2 hinfo), hfold, Run.ok_bind, ih _ hl]
        · congr 2
          ext a
          simp only [Finset.mem_union, List.mem_toFinset, Finset.mem_filter, List.mem_cons,
            hS.mem_succ]
          constructor
          · rintro ((ha | ⟨ha, rfl⟩) | ⟨ha, hmem, hi⟩)
            · exact .inl ha
            · exact .inr ⟨ha, .inl rfl, hinfo⟩
            · exact .inr ⟨ha, .inr hmem, hi⟩
          · rintro (ha | ⟨ha, heq | hmem, hi⟩)
            · exact .inl (.inl ha)
            · exact .inl (.inr ⟨ha, heq⟩)
            · exact .inr ⟨ha, hmem, hi⟩
        · intro w hw a ha hmem
          rcases Finset.mem_union.1 hmem with hmem | hmem
          · exact hD.2 w hw a ha hmem
          · have hav := ((hS.mem_succ v a).1 (List.mem_toFinset.1 hmem)).2
            have haw := ((hS.mem_succ w a).1 ha).2
            exact hv (hav.symm.trans haw ▸ hw)
      · rw [if_pos hinfo, Run.ok_bind, ih D hl hD.2]
        have hset : (S.arcs.toFinset.filter fun a ↦ S.arcPred a ∈ l ∧ info (S.arcPred a) = -1) =
            S.arcs.toFinset.filter fun a ↦ S.arcPred a ∈ v :: l ∧ info (S.arcPred a) = -1 := by
          refine Finset.filter_congr fun a _ ↦ ?_
          refine ⟨fun h ↦ ⟨List.mem_cons_of_mem _ h.1, h.2⟩, fun h ↦ ⟨?_, h.2⟩⟩
          exact (List.mem_cons.1 h.1).resolve_left fun heq ↦ hinfo (heq ▸ h.2)
        rw [hset]
  have hstart : S.dropArcs ∅ = S := by simp [Shape.dropArcs]
  have hset : (S.arcs.toFinset.filter fun a ↦ S.arcPred a ∈ S.nodes ∧ info (S.arcPred a) = -1) =
      S.arcs.toFinset.filter fun a ↦ info (S.arcPred a) = -1 := by
    refine Finset.filter_congr fun a ha ↦ ?_
    simp [hS.arcPred_mem a (List.mem_toFinset.1 ha)]
  have := hloop S.nodes ∅ hS.nodup_nodes (by simp)
  rwa [hstart, Finset.empty_union, hset] at this

/-- **The second loop** takes the marked nodes out, with their lists. -/
theorem removeNodes_eq {info : Id → ℤ} (hS : S.nodes.Nodup) (M : Marks) :
    (removeNodes info S M).1 = { S with
      nodes := S.nodes.filter (info · ≠ -1)
      pred := fun v ↦ if v ∈ S.nodes ∧ info v = -1 then [] else S.pred v
      succ := fun v ↦ if v ∈ S.nodes ∧ info v = -1 then [] else S.succ v } := by
  have hloop : ∀ (l : List Id) (p : Shape × Marks), p.1.nodes.Nodup →
      (l.foldl (fun p node ↦
        if info node ≠ -1 then p
        else ({ p.1 with
          nodes := p.1.nodes.erase node
          pred := Function.update p.1.pred node []
          succ := Function.update p.1.succ node [] }, p.2.clearNode node)) p).1 = { p.1 with
        nodes := p.1.nodes.filter fun v ↦ ¬(v ∈ l ∧ info v = -1)
        pred := fun v ↦ if v ∈ l ∧ info v = -1 then [] else p.1.pred v
        succ := fun v ↦ if v ∈ l ∧ info v = -1 then [] else p.1.succ v } := by
    intro l
    induction l with
    | nil => exact fun p _ ↦ by simp
    | cons w l ih =>
      intro p hp
      rw [List.foldl_cons]
      by_cases hinfo : info w = -1
      · rw [if_neg (not_not.2 hinfo), ih _ (hp.erase w)]
        simp only [hp.erase_eq_filter, List.filter_filter]
        congr 1
        · refine List.filter_congr fun v _ ↦ ?_
          by_cases hvw : v = w
          · subst hvw
            simp [hinfo]
          · simp [hvw]
        · funext v
          by_cases hvw : v = w
          · subst hvw
            simp [hinfo]
          · simp [hvw]
        · funext v
          by_cases hvw : v = w
          · subst hvw
            simp [hinfo]
          · simp [hvw]
      · rw [if_pos hinfo, ih p hp]
        have hiff : ∀ v, (v ∈ w :: l ∧ info v = -1) ↔ v ∈ l ∧ info v = -1 := fun v ↦
          ⟨fun h ↦ ⟨(List.mem_cons.1 h.1).resolve_left fun heq ↦ hinfo (heq ▸ h.2), h.2⟩,
            fun h ↦ ⟨List.mem_cons_of_mem _ h.1, h.2⟩⟩
        simp only [hiff]
  have hnodes : (S.nodes.filter fun v ↦ ¬(v ∈ S.nodes ∧ info v = -1)) =
      S.nodes.filter (info · ≠ -1) := List.filter_congr fun v hv ↦ by simp [hv]
  rw [removeNodes, hloop _ _ hS, hnodes]

/-! ### The graph that remains -/

include hS in
/-- Without the arcs out of some nodes and these nodes, a shape is well formed if no arc leads to them from
the others. -/
theorem Shape.WF.removeNodes {info : Id → ℤ} {M : Marks}
    (hroot : ∀ r, S.root = some r → info r ≠ -1)
    (hclosed : ∀ a ∈ S.arcs, info (S.arcPred a) ≠ -1 → info (S.arcSucc a) ≠ -1) :
    (removeNodes info (S.dropArcs (S.arcs.toFinset.filter fun a ↦ info (S.arcPred a) = -1)) M).1.WF := by
  set D := S.arcs.toFinset.filter fun a ↦ info (S.arcPred a) = -1 with hD
  have hmem (a : Id) : a ∈ S.arcs.filter (· ∉ D) ↔ a ∈ S.arcs ∧ info (S.arcPred a) ≠ -1 := by
    rw [List.mem_filter]
    exact and_congr_right fun ha ↦ by simp [hD, ha]
  rw [removeNodes_eq (S := S.dropArcs D) hS.nodup_nodes]
  refine ⟨hS.nodup_nodes.filter _, hS.nodup_arcs.filter _, fun v ↦ ?_, fun v ↦ ?_, fun v a ↦ ?_,
    fun v a ↦ ?_, fun a ha ↦ ?_, fun a ha ↦ ?_, fun r hr ↦ ?_⟩
  · dsimp only
    split_ifs
    · exact List.nodup_nil
    · exact hS.nodup_succ v
  · dsimp only
    split_ifs
    · exact List.nodup_nil
    · exact (hS.nodup_pred v).filter _
  · show a ∈ ite _ _ _ ↔ a ∈ S.arcs.filter (· ∉ D) ∧ S.arcPred a = v
    rw [hmem]
    split_ifs with hv
    · refine ⟨fun ha ↦ absurd ha List.not_mem_nil, ?_⟩
      rintro ⟨⟨-, hinfo⟩, rfl⟩
      exact absurd hv.2 hinfo
    · show a ∈ S.succ v ↔ _
      rw [hS.mem_succ]
      constructor
      · rintro ⟨ha, rfl⟩
        exact ⟨⟨ha, fun hinfo ↦ hv ⟨hS.arcPred_mem a ha, hinfo⟩⟩, rfl⟩
      · rintro ⟨⟨ha, -⟩, rfl⟩
        exact ⟨ha, rfl⟩
  · show a ∈ ite _ _ _ ↔ a ∈ S.arcs.filter (· ∉ D) ∧ S.arcSucc a = v
    rw [hmem]
    split_ifs with hv
    · refine ⟨fun ha ↦ absurd ha List.not_mem_nil, ?_⟩
      rintro ⟨⟨ha, hinfo⟩, rfl⟩
      exact absurd hv.2 (hclosed a ha hinfo)
    · show a ∈ (S.pred v).filter (· ∉ D) ↔ _
      rw [List.mem_filter, hS.mem_pred, ← hmem, List.mem_filter]
      tauto
  · obtain ⟨harc, hinfo⟩ := (hmem a).1 ha
    exact List.mem_filter.2 ⟨hS.arcPred_mem a harc, decide_eq_true hinfo⟩
  · obtain ⟨harc, hinfo⟩ := (hmem a).1 ha
    exact List.mem_filter.2 ⟨hS.arcSucc_mem a harc, decide_eq_true (hclosed a harc hinfo)⟩
  · exact List.mem_filter.2 ⟨hS.root_mem r hr, by simpa using hroot r hr⟩

/-- A new node has an id of its own. -/
theorem createGraphNode_spec {G G' : State} (hhash : ∀ v ∈ G.shape.nodes, v ∈ G.hashIdNode)
    (hrun : createGraphNode G = .ok G') : G'.nodeId ∉ G.shape.nodes ∧
      G'.shape = { G.shape.createNode G'.nodeId with root := some (G.shape.root.getD G'.nodeId) } ∧
      G'.hashIdNode = insert G'.nodeId G.hashIdNode ∧ G'.hashIdArc = G.hashIdArc ∧
      G'.marks.flags = {} := by
  rw [createGraphNode, createGraphNodeGivenId] at hrun
  split_ifs at hrun with hid
  obtain rfl := Except.ok.inj hrun
  exact ⟨fun hmem ↦ hid (hhash _ hmem), rfl, rfl, rfl, rfl⟩

/-- What deleting leaves of a graph: fewer nodes and arcs. -/
structure Shrinks (G G' : State) : Prop where
  nodes : G'.shape.nodes ⊆ G.shape.nodes
  arcs : G'.shape.arcs ⊆ G.shape.arcs
  root : G'.shape.root = G.shape.root
  arcPred : G'.shape.arcPred = G.shape.arcPred
  arcSucc : G'.shape.arcSucc = G.shape.arcSucc
  hashIdNode : G'.hashIdNode = G.hashIdNode
  hashIdArc : G'.hashIdArc = G.hashIdArc

/-- **Deleting leaves a well-formed graph** when it sorts the graph itself. -/
theorem deleteUnreachable_wf {G G' : State} (hS : G.shape.WF) (hflag : G.marks.flags.topoSort = false)
    {t : ℤ} (hrun : deleteUnreachable G = .ok (t, G')) : G'.shape.WF ∧ Shrinks G G' := by
  obtain ⟨⟨count, M⟩, hsort, hrest⟩ := Run.bind_eq_ok.1 hrun
  cases hr : G.shape.root with
  | none => simp [topologicalSort, hflag, Shape.getRoot, hr] at hsort
  | some r =>
    obtain ⟨evs, V, T, hscan, hsort', -⟩ := topologicalSort_spec hS hr hflag
    obtain ⟨rfl, rfl⟩ := Prod.mk.inj (Except.ok.inj (hsort'.symm.trans hsort))
    have hreach (v : Id) : v ∈ postorder r evs ↔
        Relation.ReflTransGen (Arc G.shape.succ G.shape.arcSucc) r v :=
      hscan.postorder_perm.mem_iff.trans hscan.mem_preorder_iff_reach
    dsimp only at hrest
    split_ifs at hrest with hzero
    · obtain ⟨-, rfl⟩ := Prod.mk.inj (Except.ok.inj hrest)
      exact ⟨hS, fun _ h ↦ h, fun _ h ↦ h, rfl, rfl, rfl, rfl, rfl⟩
    · rw [removeArcs_eq hS, Run.ok_bind] at hrest
      obtain ⟨-, rfl⟩ := Prod.mk.inj (Except.ok.inj hrest)
      have hinfo (v : Id) (hv : v ∈ G.shape.nodes) :
          (if v ∈ postorder r evs then ((postorder r evs).reverse.idxOf v : ℤ) + 1
            else if v ∈ G.shape.nodes then -1 else G.marks.info v) ≠ -1 ↔ v ∈ postorder r evs := by
        rw [if_pos hv]
        split_ifs with hpost
        · simp only [hpost, iff_true]
          omega
        · simp [hpost]
      refine ⟨hS.removeNodes (fun r' hr' ↦ ?_) fun a ha hpred ↦ ?_, ?_⟩
      · obtain rfl := Option.some.inj (hr.symm.trans hr')
        exact (hinfo r (hS.root_mem r hr)).2 ((hreach r).2 .refl)
      · refine (hinfo _ (hS.arcSucc_mem a ha)).2 ((hreach _).2 ?_)
        exact ((hreach _).1 ((hinfo _ (hS.arcPred_mem a ha)).1 hpred)).tail
          ⟨a, (hS.mem_succ _ a).2 ⟨ha, rfl⟩, rfl⟩
      · rw [removeNodes_eq (S := G.shape.dropArcs _) hS.nodup_nodes]
        exact ⟨List.filter_subset_self _, List.filter_subset_self _, rfl, rfl, rfl, rfl, rfl⟩

end OpenImpact.Graph
