import OpenImpact.Library.GraphImmDom

/-!
# Runs of the analyses

What a call does, said once for each analysis (`immDominator_cases` and its kin), and what calls in any
order on a new graph keep (`AnalysesInv`): the sets and lists there are are those of fresh runs, and the
topological sort is done once a call that sorts was made. The theorems about the immediate
post-dominators and the control dependences rest on this. Nothing is said of `Graph_bfs_topo_sort`, which
leaves another list in `topo_list`.
-/

namespace OpenImpact.Graph

open Foundation Foundation.Dfs

variable {S : Shape} {R R' : Results}

/-! ### What one call does -/

/-- The immediate dominators are computed with the dominators, or were already there. -/
theorem immDominator_cases (h : immDominator S R = .ok R') :
    R.immDomDone = true ∧ R' = R ∨ R.immDomDone = false ∧
      ∃ M, dominator S R.toMarks = .ok M ∧ R' = { R with
        toMarks := M
        immDom := fun v ↦ if v ∈ S.nodes then lastBefore v (M.dom v) M.topoList none else R.immDom v
        immDomDone := true } := by
  rw [immDominator] at h
  split_ifs at h with hdone
  · exact .inl ⟨hdone, (Except.ok.inj h).symm⟩
  · obtain ⟨M, hM, hrest⟩ := Run.bind_eq_ok.1 h
    exact .inr ⟨Bool.not_eq_true _ ▸ hdone, M, hM, (Except.ok.inj hrest).symm⟩

/-- So are the immediate post dominators. -/
theorem immPostDominator_cases (h : immPostDominator S R = .ok R') :
    R.immPostDomDone = true ∧ R' = R ∨ R.immPostDomDone = false ∧
      ∃ M, postDominator S R.toMarks = .ok M ∧ R' = { R with
        toMarks := M
        immPostDom := fun v ↦
          if v ∈ S.nodes then lastBefore v (M.postDom v) M.topoList.reverse none else R.immPostDom v
        immPostDomDone := true } := by
  rw [immPostDominator] at h
  split_ifs at h with hdone
  · exact .inl ⟨hdone, (Except.ok.inj h).symm⟩
  · obtain ⟨M, hM, hrest⟩ := Run.bind_eq_ok.1 h
    exact .inr ⟨Bool.not_eq_true _ ▸ hdone, M, hM, (Except.ok.inj hrest).symm⟩

/-- Control dependence calls for the immediate post dominators and the sort, and then goes over all
arcs. -/
theorem controlDependence_cases (h : controlDependence S R = .ok R') :
    R.controlDone = true ∧ R' = R ∨ R.controlDone = false ∧
      ∃ R₁ t M contrDep, immPostDominator S R = .ok R₁ ∧ topologicalSort S R₁.toMarks = .ok (t, M) ∧
        S.nodes.foldlM (fun contrDep node ↦ (S.succ node).foldlM
            (controlArc S { R₁ with toMarks := M } M.topoList.getLast? node) contrDep)
          (fun v ↦ if v ∈ S.nodes then none else R₁.contrDep v) = .ok contrDep ∧
        R' = { R₁ with toMarks := M, contrDep := contrDep, controlDone := true } := by
  rw [controlDependence] at h
  split_ifs at h with hdone
  · exact .inl ⟨hdone, (Except.ok.inj h).symm⟩
  · obtain ⟨R₁, hR₁, h⟩ := Run.bind_eq_ok.1 h
    obtain ⟨⟨t, M⟩, hM, h⟩ := Run.bind_eq_ok.1 h
    obtain ⟨contrDep, hfold, h⟩ := Run.bind_eq_ok.1 h
    exact .inr ⟨Bool.not_eq_true _ ▸ hdone, R₁, t, M, contrDep, hR₁, hM, hfold, (Except.ok.inj h).symm⟩

/-- A node changes the classes only. -/
theorem equivCdNode_eq {node : Id} (h : equivCdNode S R node = .ok R') :
    R' = { R with equivCds := R'.equivCds, equivCd := R'.equivCd } := by
  rw [equivCdNode] at h
  cases hjoin : joinClass node (R.contrDep node) R.equivCds with
  | some p =>
    rw [hjoin] at h
    rw [← Except.ok.inj h]
  | none =>
    rw [hjoin] at h
    obtain ⟨arcs, -, h⟩ := Run.bind_eq_ok.1 h
    rw [← Except.ok.inj h]

/-- The classes are found in topological order, after control dependence. -/
theorem equivCd_cases (h : equivCd S R = .ok R') :
    R.equivCdDone = true ∧ R' = R ∨ R.equivCdDone = false ∧
      ∃ R₁ R₂, controlDependence S R = .ok R₁ ∧ R₁.topoList.foldlM (equivCdNode S) R₁ = .ok R₂ ∧
        R₂ = { R₁ with equivCds := R₂.equivCds, equivCd := R₂.equivCd } ∧
        R' = { R₂ with equivCdDone := true } := by
  rw [equivCd] at h
  split_ifs at h with hdone
  · exact .inl ⟨hdone, (Except.ok.inj h).symm⟩
  · obtain ⟨R₁, hR₁, h⟩ := Run.bind_eq_ok.1 h
    obtain ⟨R₂, hR₂, h⟩ := Run.bind_eq_ok.1 h
    refine .inr ⟨Bool.not_eq_true _ ▸ hdone, R₁, R₂, hR₁, hR₂, ?_, (Except.ok.inj h).symm⟩
    exact Run.foldlM_keeps (P := fun R ↦ R = { R₁ with equivCds := R.equivCds, equivCd := R.equivCd })
      (fun node _ a b ha hb ↦ by rw [equivCdNode_eq hb, ha]) rfl hR₂

/-! ### What calls keep -/

/-- The sort is as it was, and so are sets that still have not been computed. -/
structure Kept (M M' : Marks) : Prop where
  topoSort : M'.flags.topoSort = M.flags.topoSort
  topoList : M'.topoList = M.topoList
  dom : M'.flags.dom = false → M.flags.dom = false ∧ M'.dom = M.dom
  postDom : M'.flags.postDom = false → M.flags.postDom = false ∧ M'.postDom = M.postDom

section Kept

variable {M M' : Marks}

/-- Nothing is changed. -/
theorem Kept.refl (M : Marks) : Kept M M := ⟨rfl, rfl, fun h ↦ ⟨h, rfl⟩, fun h ↦ ⟨h, rfl⟩⟩

/-- The dominators leave the sort and the other sets alone, and are there afterwards. -/
theorem dominator_kept (h : dominator S M = .ok M') : Kept M M' ∧ M'.flags.dom = true := by
  rw [dominator] at h
  split_ifs at h with hflag
  · rw [← Except.ok.inj h]
    exact ⟨.refl M, hflag⟩
  · obtain ⟨dom, -, h⟩ := Run.bind_eq_ok.1 h
    rw [← Except.ok.inj h]
    exact ⟨⟨rfl, rfl, fun h ↦ (by cases h), fun h ↦ ⟨h, rfl⟩⟩, rfl⟩

/-- The post dominators leave the sort and the dominators alone. -/
theorem postDominator_kept (h : postDominator S M = .ok M') : Kept M M' := by
  rw [postDominator] at h
  split_ifs at h
  · rw [← Except.ok.inj h]
    exact .refl M
  · obtain ⟨postDom, -, h⟩ := Run.bind_eq_ok.1 h
    rw [← Except.ok.inj h]
    exact ⟨rfl, rfl, fun h ↦ ⟨h, rfl⟩, fun h ↦ by cases h⟩

/-- Counting the paths may compute the dominators first, and leaves the sort alone. -/
theorem countPaths_kept (h : countPaths S M = .ok M') : Kept M M' := by
  rw [countPaths] at h
  split_ifs at h
  · rw [← Except.ok.inj h]
    exact .refl M
  · obtain ⟨M₁, hM₁, h⟩ := Run.bind_eq_ok.1 h
    obtain ⟨root, -, h⟩ := Run.bind_eq_ok.1 h
    obtain ⟨c, -, h⟩ := Run.bind_eq_ok.1 h
    obtain ⟨⟨hsort, hlist, hdom, hpost⟩, -⟩ := dominator_kept hM₁
    rw [← Except.ok.inj h]
    exact ⟨hsort, hlist, hdom, hpost⟩

/-- So may the preorder sort, which does not touch the topological one. -/
theorem preorderDfsSort_kept (hS : S.WF) {directed : Bool}
    (h : preorderDfsSort S directed M = .ok M') : Kept M M' := by
  by_cases hflag : M.flags.dfsPreSort = true
  · rw [preorderDfsSort, if_pos hflag] at h
    rw [← Except.ok.inj h]
    exact .refl M
  rw [Bool.not_eq_true] at hflag
  cases hr : S.root with
  | none =>
    obtain ⟨dom, hdom⟩ := dominator_ok hS M
    simp [preorderDfsSort, hflag, hdom, Shape.getRoot, hr] at h
  | some r =>
    obtain ⟨evs, V, T, B, dom, -, -, hrun, -⟩ := preorderDfsSort_spec hS directed hr hflag
    rw [← Except.ok.inj (hrun.symm.trans h)]
    exact ⟨rfl, rfl, fun h ↦ (by cases h), fun h ↦ ⟨h, rfl⟩⟩

end Kept

/-- The state between two calls. `T` is what the topological sort leaves. -/
structure AnalysesInv (S : Shape) (T : List Id) (R : Results) : Prop where
  marks : MarksInv S R.toMarks
  topoList : R.topoList = if R.flags.topoSort then T else []
  control : R.controlDone = true → R.flags.topoSort = true
  equivCd : R.equivCdDone = true → R.flags.topoSort = true
  dom : R.flags.dom = false → ∀ v, R.dom v = none
  postDom : R.flags.postDom = false → ∀ v, R.postDom v = none

/-- What the topological sort of the graph leaves. -/
def IsTopoList (S : Shape) (T : List Id) : Prop :=
  ∃ t F, topologicalSort S .fresh = .ok (t, F) ∧ F.topoList = T

/-- The calls that sort. -/
def sorting : List Analysis := [.topologicalSort, .controlDependence, .equivCd]

/-- Of the calls in `early` and in `late`, the first one made is in `early`. -/
def comesFirst (early late : List Analysis) : List Analysis → Bool
  | [] => false
  | call :: rest =>
    if call ∈ early then true
    else if call ∈ late then false
    else comesFirst early late rest

variable {T : List Id} (hS : S.WF) (hT : IsTopoList S T)

/-- Nothing is there for a graph just built. -/
theorem AnalysesInv.fresh (S : Shape) (T : List Id) : AnalysesInv S T .fresh where
  marks := ⟨.fresh S, .of_flags_clear rfl⟩
  topoList := rfl
  control h := (nomatch h)
  equivCd h := (nomatch h)
  dom _ _ := rfl
  postDom _ _ := rfl

/-- An analysis of the marks that leaves the sort alone. -/
theorem AnalysesInv.setMarks (h : AnalysesInv S T R) {M : Marks} (hM : MarksInv S M)
    (hk : Kept R.toMarks M) : AnalysesInv S T { R with toMarks := M } where
  marks := hM
  topoList := by
    show M.topoList = if M.flags.topoSort then T else []
    rw [hk.topoSort, hk.topoList]
    exact h.topoList
  control hc := hk.topoSort.trans (h.control hc)
  equivCd hc := hk.topoSort.trans (h.equivCd hc)
  dom hflag v := by
    obtain ⟨hflag, hdom⟩ := hk.dom hflag
    exact (congrFun hdom v).trans (h.dom hflag v)
  postDom hflag v := by
    obtain ⟨hflag, hpost⟩ := hk.postDom hflag
    exact (congrFun hpost v).trans (h.postDom hflag v)

include hS hT in
/-- The sort leaves `T`. -/
theorem AnalysesInv.topologicalSort (h : AnalysesInv S T R) {t : ℤ} {M : Marks}
    (hrun : topologicalSort S R.toMarks = .ok (t, M)) :
    AnalysesInv S T { R with toMarks := M } ∧ M.flags.topoSort = true := by
  have hM := (h.marks.topologicalSort hS hrun).1
  obtain ⟨hflag, hdom, hpost⟩ : M.flags.topoSort = true ∧
      (M.flags.dom = R.flags.dom ∧ M.dom = R.dom) ∧
      M.flags.postDom = R.flags.postDom ∧ M.postDom = R.postDom := by
    by_cases hflag : R.flags.topoSort = true
    · obtain ⟨-, rfl⟩ := Prod.mk.inj (Except.ok.inj ((topologicalSort_cached hflag).symm.trans hrun))
      exact ⟨hflag, ⟨rfl, rfl⟩, rfl, rfl⟩
    · obtain ⟨F, T, -, rfl, -⟩ :=
        topologicalSort_fresh hS h.marks.outside (Bool.eq_false_iff.2 hflag) hrun
      exact ⟨rfl, ⟨rfl, rfl⟩, rfl, rfl⟩
  obtain ⟨t₁, F, hF, hlist⟩ := hM.lists.topoSort hflag
  obtain ⟨t₂, F', hF', rfl⟩ := hT
  obtain ⟨rfl, rfl⟩ := Prod.mk.inj (Except.ok.inj (hF.symm.trans hF'))
  refine ⟨⟨hM, by rw [hflag]; exact hlist, fun _ ↦ hflag, fun _ ↦ hflag, fun h' v ↦ ?_,
    fun h' v ↦ ?_⟩, hflag⟩
  · exact (congrFun hdom.2 v).trans (h.dom (hdom.1.symm.trans h') v)
  · exact (congrFun hpost.2 v).trans (h.postDom (hpost.1.symm.trans h') v)

include hS in
/-- The immediate dominators keep the invariant and do not touch the sort. -/
theorem AnalysesInv.immDominator (h : AnalysesInv S T R) (hrun : immDominator S R = .ok R') :
    AnalysesInv S T R' ∧ R'.flags.topoSort = R.flags.topoSort := by
  rcases immDominator_cases hrun with ⟨-, rfl⟩ | ⟨-, M, hM, rfl⟩
  · exact ⟨h, rfl⟩
  · have hk := (dominator_kept hM).1
    obtain ⟨hmarks, htopo, hcontrol, hequiv, hdom, hpost⟩ :=
      h.setMarks (h.marks.dominator hS hM).1 hk
    exact ⟨⟨hmarks, htopo, hcontrol, hequiv, hdom, hpost⟩, hk.topoSort⟩

include hS in
/-- Nor do the immediate post dominators. -/
theorem AnalysesInv.immPostDominator (h : AnalysesInv S T R) (hrun : immPostDominator S R = .ok R') :
    AnalysesInv S T R' ∧ R'.flags.topoSort = R.flags.topoSort := by
  rcases immPostDominator_cases hrun with ⟨-, rfl⟩ | ⟨-, M, hM, rfl⟩
  · exact ⟨h, rfl⟩
  · have hk := postDominator_kept hM
    obtain ⟨hmarks, htopo, hcontrol, hequiv, hdom, hpost⟩ :=
      h.setMarks (h.marks.postDominator hS hM).1 hk
    exact ⟨⟨hmarks, htopo, hcontrol, hequiv, hdom, hpost⟩, hk.topoSort⟩

include hS hT in
/-- After control dependence the sort is there. -/
theorem AnalysesInv.controlDependence (h : AnalysesInv S T R)
    (hrun : controlDependence S R = .ok R') :
    AnalysesInv S T R' ∧ R'.flags.topoSort = true := by
  rcases controlDependence_cases hrun with ⟨hdone, rfl⟩ | ⟨-, R₁, t, M, contrDep, hR₁, hM, -, rfl⟩
  · exact ⟨h, h.control hdone⟩
  · obtain ⟨h₁, -⟩ := h.immPostDominator hS hR₁
    obtain ⟨⟨hmarks, htopo, -, -, hdom, hpost⟩, hflag⟩ := h₁.topologicalSort hS hT hM
    exact ⟨⟨hmarks, htopo, fun _ ↦ hflag, fun _ ↦ hflag, hdom, hpost⟩, hflag⟩

include hS hT in
/-- And after the classes. -/
theorem AnalysesInv.equivCd_call (h : AnalysesInv S T R) (hrun : Graph.equivCd S R = .ok R') :
    AnalysesInv S T R' ∧ R'.flags.topoSort = true := by
  rcases equivCd_cases hrun with ⟨hdone, rfl⟩ | ⟨-, R₁, R₂, hR₁, -, heq, rfl⟩
  · exact ⟨h, h.equivCd hdone⟩
  · obtain ⟨⟨hmarks, htopo, hcontrol, -, hdom, hpost⟩, hflag⟩ := h.controlDependence hS hT hR₁
    rw [heq]
    exact ⟨⟨hmarks, htopo, hcontrol, fun _ ↦ hflag, hdom, hpost⟩, hflag⟩

include hS hT in
/-- **One call** keeps the invariant, and sorts if it is one that sorts. -/
theorem AnalysesInv.analyse {call : Analysis} (h : AnalysesInv S T R)
    (hrun : analyse S R call = .ok R') :
    AnalysesInv S T R' ∧ R'.flags.topoSort = (R.flags.topoSort || decide (call ∈ sorting)) := by
  have hmarks : ∀ {M}, MarksInv S M → Kept R.toMarks M → R' = { R with toMarks := M } →
      AnalysesInv S T R' ∧ R'.flags.topoSort = (R.flags.topoSort || false) := by
    rintro M hM hk rfl
    exact ⟨h.setMarks hM hk, hk.topoSort.trans (Bool.or_false _).symm⟩
  cases call with
  | dominator =>
    obtain ⟨M, hM, rfl⟩ := Run.map_eq_ok.1 hrun
    exact hmarks (h.marks.dominator hS hM).1 (dominator_kept hM).1 rfl
  | postDominator =>
    obtain ⟨M, hM, rfl⟩ := Run.map_eq_ok.1 hrun
    exact hmarks (h.marks.postDominator hS hM).1 (postDominator_kept hM) rfl
  | immDominator =>
    obtain ⟨hinv, hflag⟩ := h.immDominator hS hrun
    exact ⟨hinv, hflag.trans (Bool.or_false _).symm⟩
  | immPostDominator =>
    obtain ⟨hinv, hflag⟩ := h.immPostDominator hS hrun
    exact ⟨hinv, hflag.trans (Bool.or_false _).symm⟩
  | controlDependence =>
    obtain ⟨hinv, hflag⟩ := h.controlDependence hS hT hrun
    exact ⟨hinv, hflag.trans (Bool.or_true _).symm⟩
  | equivCd =>
    obtain ⟨hinv, hflag⟩ := h.equivCd_call hS hT hrun
    exact ⟨hinv, hflag.trans (Bool.or_true _).symm⟩
  | topologicalSort =>
    obtain ⟨⟨t, M⟩, hM, rfl⟩ := Run.map_eq_ok.1 hrun
    obtain ⟨hinv, hflag⟩ := h.topologicalSort hS hT hM
    exact ⟨hinv, hflag.trans (Bool.or_true _).symm⟩
  | preorderDfsSort directed =>
    obtain ⟨M, hM, rfl⟩ := Run.map_eq_ok.1 hrun
    exact hmarks (h.marks.preorderDfsSort hS hM).1 (preorderDfsSort_kept hS hM) rfl
  | countPaths =>
    obtain ⟨M, hM, rfl⟩ := Run.map_eq_ok.1 hrun
    exact hmarks (h.marks.countPaths hS hM).1 (countPaths_kept hM) rfl

end OpenImpact.Graph
