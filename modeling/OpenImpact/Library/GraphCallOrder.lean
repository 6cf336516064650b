import OpenImpact.Library.GraphBfs
import OpenImpact.Library.GraphNodeIds

/-!
# Immediate dominators after calls in any order

`imm_dom` comes from `topo_list` as it is when `Graph_imm_dominator` is first called, and three sorts
write that list: `Graph_topological_sort`, which `Graph_control_dependence` and `Graph_equiv_cd` call
too, and `Graph_bfs_topo_sort`. Any of them leaves a list with the immediate dominators first
(`IsDomOrder`): the breadth-first one too, also when it accepts a header early, since a node is accepted
after one with an arc to it (`FoundFirst`). So `imm_dom` is right exactly when a call that sorts came
before the first `Graph_imm_dominator` (`immDomRight_iff`); later calls leave it alone.

The calls are those of `Analysis` and `Graph_bfs_topo_sort` in any order and number, in a graph with ids.
What is claimed of the dominators needs ids that are exact for the sweeps from the root
(`NodeIds.ExactAt`); nothing is claimed of the post-dominators here, whose sets may be wrong or missing.
-/

namespace OpenImpact.Graph

open Foundation Foundation.Dfs SignedSet

/-- A call: an analysis, or the breadth-first sort, with the flags that the nodes have then. -/
inductive GraphCall where
  | analysis (call : Analysis)
  | bfsTopoSort (F : NodeFlags)

/-- One call. -/
def execCall (S : Shape) (ids : NodeIds S) (R : Results) : GraphCall → Run Results
  | .analysis call => analyseIds S ids R call
  | .bfsTopoSort F => (fun p ↦ { R with toMarks := p.2 }) <$> bfsTopoSort S F R.toMarks

/-- Calls on a new graph, one after the other. -/
def runGraphCalls (S : Shape) (ids : NodeIds S) (calls : List GraphCall) : Run Results :=
  calls.foldlM (execCall S ids) .fresh

/-- The call sorts. -/
def GraphCall.sorts : GraphCall → Bool
  | .analysis call => decide (call ∈ sorting)
  | .bfsTopoSort _ => true

/-- The call is `Graph_imm_dominator`. -/
def GraphCall.isImmDominator : GraphCall → Bool
  | .analysis .immDominator => true
  | _ => false

/-- A call sorts before the first `Graph_imm_dominator`. -/
def sortsFirst : List GraphCall → Bool
  | [] => false
  | call :: rest => call.sorts || (!call.isImmDominator && sortsFirst rest)

/-- The `dom` sets as the source describes them. -/
def DomRight (S : Shape) (r : Id) (dom : Id → Option (Finset Id)) : Prop :=
  ∀ v ∈ S.nodes, ∃ s, dom v = some s ∧ ∀ d, d ∈ s ↔ Dominates S.Step r d v

/-- So are the sets of ids. -/
def DomIdsRight (S : Shape) (ids : NodeIds S) (r : Id) (dom : Id → Option SignedSet) : Prop :=
  ∀ v ∈ S.nodes, ∀ x, Mem (dom v) x ↔ ∃ d, Dominates S.Step r d v ∧ ids.id d = x

variable {S : Shape} {r : Id} {R R' : Results} {M M' : Marks}

/-! ### Dominators of a graph with ids -/

/-- A dominator of a node is a node. -/
theorem IsRooted.dominator_mem (h : IsRooted S r) {d v : Id} (hv : v ∈ S.nodes)
    (hd : Dominates S.Step r d v) : d ∈ S.nodes := by
  obtain ⟨l, hl⟩ := exists_walk (h.reach v hv)
  obtain ⟨m, hm, -⟩ := hl.exists_upto (hd l hl)
  rcases (hm.reflTransGen hm.head_mem).cases_tail with rfl | ⟨b, -, hbd⟩
  · exact h.wf.root_mem d h.root
  · exact (step_mem_nodes h.wf hbd).2

/-- Sets of dominators that are computed are right. -/
theorem IsRooted.domRight (h : IsRooted S r) {dom : Id → Option (Finset Id)}
    (hdom : IsDomSets S.Step r S.nodes dom) : DomRight S r dom := by
  intro v hv
  obtain ⟨s, hs, hmem⟩ := hdom v hv
  exact ⟨s, hs, fun d ↦ (hmem d).trans (and_iff_right_of_imp fun hd ↦ h.dominator_mem hv hd)⟩

/-- The root is the only node without predecessors. -/
theorem IsRooted.pred_eq_nil_iff (h : IsRooted S r) {v : Id} (hv : v ∈ S.nodes) :
    S.pred v = [] ↔ v = r :=
  ⟨fun hnil ↦ of_not_not fun hne ↦ h.pred_ne_nil hv hne hnil, fun heq ↦ heq ▸ h.pred_root⟩

/-- With these ids the sets of ids are as good as the sets of nodes. -/
theorem IsRooted.dominatorIds_eq (h : IsRooted S r) {ids : NodeIds S} (hids : ids.ExactAt r)
    (M : Marks) : dominatorIds S ids M = Graph.dominator S M :=
  Graph.dominatorIds_eq h.wf ids (h.wf.root_mem r h.root) (fun _ hv ↦ h.pred_eq_nil_iff hv) hids M

/-- **`Graph_dominator` is right**, for ids that are exact from the root on. -/
theorem IsRooted.dominatorIds_right (h : IsRooted S r) {ids : NodeIds S} (hids : ids.ExactAt r)
    (hflag : M.flags.dom = false) :
    ∃ dom M', computeDomIds ids.id S.pred S.arcPred S.nodes = .ok dom ∧ DomIdsRight S ids r dom ∧
      dominatorIds S ids M = .ok M' ∧ DomRight S r M'.dom := by
  obtain ⟨names, hrun, hsets⟩ := h.dominator hflag
  obtain ⟨dom, names', hrunIds, hrun', hstands, -⟩ := @computeDomIds_eq ids.id S.nodes S.pred S.arcPred
    ids.unique (fun v _ a ha ↦ h.wf.arcPred_mem a ((h.wf.mem_pred v a).1 ha).1)
    (hids.imp_right fun hneg v hv hnil ↦ (h.pred_eq_nil_iff hv).1 hnil ▸ hneg) M.dom
    ⟨r, h.wf.root_mem r h.root, h.pred_root⟩
  obtain rfl : names = names' := by
    rw [Graph.dominator, hflag, if_neg Bool.false_ne_true, hrun'] at hrun
    exact (congrArg Marks.dom (Except.ok.inj hrun)).symm
  refine ⟨dom, _, hrunIds, fun v hv x ↦ ?_, (h.dominatorIds_eq hids M).trans hrun, h.domRight hsets⟩
  obtain ⟨s, hs, hmem⟩ := h.domRight hsets v hv
  rw [(hstands v hv).mem_iff, hs]
  exact exists_congr fun d ↦ and_congr_left' (hmem d)

/-! ### What a call keeps -/

/-- The list, and sets that are right. -/
structure SortKept (S : Shape) (r : Id) (M M' : Marks) : Prop where
  topoSort : M'.flags.topoSort = M.flags.topoSort
  topoList : M'.topoList = M.topoList
  dom : (M.flags.dom = true → IsDomSets S.Step r S.nodes M.dom) → M'.flags.dom = true →
    IsDomSets S.Step r S.nodes M'.dom

theorem SortKept.refl (M : Marks) : SortKept S r M M := ⟨rfl, rfl, id⟩

/-- The dominators change nothing that the sorts have stored. -/
theorem IsRooted.dominator_sortKept (h : IsRooted S r) (hrun : Graph.dominator S M = .ok M') :
    SortKept S r M M' := by
  obtain ⟨⟨hsort, hlist, -, -⟩, -⟩ := dominator_kept hrun
  refine ⟨hsort, hlist, fun hright hflag' ↦ ?_⟩
  cases hflag : M.flags.dom with
  | true =>
    rw [Graph.dominator, hflag, if_pos rfl] at hrun
    exact Except.ok.inj hrun ▸ hright hflag
  | false =>
    obtain ⟨dom, hrun', hsets⟩ := h.dominator hflag
    rw [← Except.ok.inj (hrun'.symm.trans hrun)]
    exact hsets

/-- Nor do the post-dominators. -/
theorem postDominator_sortKept (hrun : postDominator S M = .ok M') : SortKept S r M M' := by
  rw [postDominator] at hrun
  split_ifs at hrun
  · exact Except.ok.inj hrun ▸ .refl M
  · obtain ⟨postDom, -, hrun⟩ := Run.bind_eq_ok.1 hrun
    exact Except.ok.inj hrun ▸ ⟨rfl, rfl, id⟩

/-- Nor do those with ids. -/
theorem postDominatorIds_sortKept {ids : NodeIds S} (hrun : postDominatorIds S ids M = .ok M') :
    SortKept S r M M' := by
  rw [postDominatorIds] at hrun
  split_ifs at hrun
  · exact Except.ok.inj hrun ▸ .refl M
  · obtain ⟨postDom, -, hrun⟩ := Run.bind_eq_ok.1 hrun
    exact Except.ok.inj hrun ▸ ⟨rfl, rfl, id⟩

/-- Nor does counting the paths. -/
theorem IsRooted.countPaths_sortKept (h : IsRooted S r) (hrun : countPaths S M = .ok M') :
    SortKept S r M M' := by
  rw [countPaths] at hrun
  split_ifs at hrun
  · exact Except.ok.inj hrun ▸ .refl M
  · obtain ⟨M₁, hM₁, hrun⟩ := Run.bind_eq_ok.1 hrun
    obtain ⟨root, -, hrun⟩ := Run.bind_eq_ok.1 hrun
    obtain ⟨c, -, hrun⟩ := Run.bind_eq_ok.1 hrun
    obtain ⟨hsort, hlist, hdom⟩ := h.dominator_sortKept hM₁
    exact Except.ok.inj hrun ▸ ⟨hsort, hlist, hdom⟩

/-- Nor does the preorder sort. -/
theorem IsRooted.preorderDfsSort_sortKept (h : IsRooted S r) {directed : Bool}
    (hrun : preorderDfsSort S directed M = .ok M') : SortKept S r M M' := by
  cases hflag : M.flags.dfsPreSort with
  | true =>
    rw [preorderDfsSort, hflag, if_pos rfl] at hrun
    exact Except.ok.inj hrun ▸ .refl M
  | false =>
    obtain ⟨evs, V, T, B, dom, -, hdom, hsort, -⟩ := preorderDfsSort_spec h.wf directed h.root hflag
    have hkept := h.dominator_sortKept hdom
    exact Except.ok.inj (hsort.symm.trans hrun) ▸ ⟨rfl, rfl, hkept.dom⟩

/-- The state between two calls. -/
structure SortInv (S : Shape) (r : Id) (R : Results) : Prop where
  dom : R.flags.dom = true → IsDomSets S.Step r S.nodes R.dom
  sorted : R.flags.topoSort = true → IsDomOrder S r R.topoList
  unsorted : R.flags.topoSort = false → R.topoList = []
  control : R.controlDone = true → R.flags.topoSort = true
  equivCd : R.equivCdDone = true → R.flags.topoSort = true

/-- Nothing has been stored in a new graph. -/
theorem SortInv.fresh (S : Shape) (r : Id) : SortInv S r .fresh where
  dom h := absurd h Bool.false_ne_true
  sorted h := absurd h Bool.false_ne_true
  unsorted _ := rfl
  control h := absurd h Bool.false_ne_true
  equivCd h := absurd h Bool.false_ne_true

/-- A call that keeps what the sorts have stored keeps the invariant. -/
theorem SortInv.setMarks (hinv : SortInv S r R) (hk : SortKept S r R.toMarks M) :
    SortInv S r { R with toMarks := M } where
  dom := hk.dom hinv.dom
  sorted hflag := hk.topoList ▸ hinv.sorted (hk.topoSort ▸ hflag)
  unsorted hflag := hk.topoList.trans (hinv.unsorted (hk.topoSort ▸ hflag))
  control hdone := hk.topoSort.trans (hinv.control hdone)
  equivCd hdone := hk.topoSort.trans (hinv.equivCd hdone)

/-- A list that is the result of a sort. -/
theorem SortInv.setSort (hinv : SortInv S r R) (hlist : IsDomOrder S r M.topoList)
    (hflags : M.flags = { R.flags with topoSort := true }) (hdom : M.dom = R.dom) :
    SortInv S r { R with toMarks := M } where
  dom hflag := by
    show IsDomSets S.Step r S.nodes M.dom
    rw [hdom]
    exact hinv.dom (by simpa [hflags] using hflag)
  sorted _ := hlist
  unsorted hflag := by simp [hflags] at hflag
  control _ := by simp [hflags]
  equivCd _ := by simp [hflags]

section Calls

variable (h : IsRooted S r) (hinv : SortInv S r R)

include h hinv in
/-- A topological sort stores its own list. -/
theorem SortInv.topologicalSort {t : ℤ} (hrun : Graph.topologicalSort S R.toMarks = .ok (t, M)) :
    SortInv S r { R with toMarks := M } ∧ M.flags.topoSort = true := by
  cases hflag : R.flags.topoSort with
  | true =>
    obtain ⟨-, rfl⟩ := Prod.mk.inj (Except.ok.inj ((topologicalSort_cached hflag).symm.trans hrun))
    exact ⟨hinv, hflag⟩
  | false =>
    obtain ⟨evs, V, T, hscan, hsort, -⟩ := topologicalSort_spec h.wf h.root hflag
    obtain ⟨-, rfl⟩ := Prod.mk.inj (Except.ok.inj (hsort.symm.trans hrun))
    exact ⟨hinv.setSort (isDomOrder_postorder hscan) rfl rfl, rfl⟩

include h hinv in
/-- So does the breadth-first one. -/
theorem SortInv.bfsTopoSort {F : NodeFlags} {t : ℤ}
    (hrun : Graph.bfsTopoSort S F R.toMarks = .ok (t, M)) :
    SortInv S r { R with toMarks := M } ∧ M.flags.topoSort = true := by
  cases hflag : R.flags.topoSort with
  | true =>
    rw [Graph.bfsTopoSort, hflag, if_pos rfl] at hrun
    obtain ⟨-, rfl⟩ := Prod.mk.inj (Except.ok.inj hrun)
    exact ⟨hinv, hflag⟩
  | false =>
    -- the run returned, so no node to defer was met too early or too often
    have hroot : ∀ a ∈ S.succ r, F.defer (S.arcSucc a) = true → S.arcSucc a = r := by
      by_contra hroot
      rw [bfsTopoSort_fault h.wf h.root hflag hroot] at hrun
      cases hrun
    rcases bfsTopoSort_cases h.wf h.root hflag hroot with
      ⟨t', M', hrun', -, hlist, hflags, hdom⟩ | ⟨-, e, herr⟩
    · obtain ⟨-, rfl⟩ := Prod.mk.inj (Except.ok.inj (hrun'.symm.trans hrun))
      exact ⟨hinv.setSort hlist hflags hdom, by rw [hflags]⟩
    · rw [herr] at hrun
      cases hrun

include hinv in
/-- `Graph_imm_post_dominator` keeps the invariant. -/
theorem SortInv.immPostDominator (hrun : Graph.immPostDominator S R = .ok R') :
    SortInv S r R' ∧ R'.flags.topoSort = R.flags.topoSort ∧ R'.immDomDone = R.immDomDone ∧
      R'.immDom = R.immDom := by
  rcases immPostDominator_cases hrun with ⟨-, rfl⟩ | ⟨-, M, hM, rfl⟩
  · exact ⟨hinv, rfl, rfl, rfl⟩
  · have hk : SortKept S r R.toMarks M := postDominator_sortKept hM
    obtain ⟨hdom, hsorted, hunsorted, hcontrol, hequiv⟩ := hinv.setMarks hk
    exact ⟨⟨hdom, hsorted, hunsorted, hcontrol, hequiv⟩, hk.topoSort, rfl, rfl⟩

include h hinv in
/-- `Graph_control_dependence` keeps it, with the graph sorted. -/
theorem SortInv.controlDependence (hrun : Graph.controlDependence S R = .ok R') :
    SortInv S r R' ∧ R'.flags.topoSort = true ∧ R'.immDomDone = R.immDomDone ∧
      R'.immDom = R.immDom := by
  rcases controlDependence_cases hrun with ⟨hdone, rfl⟩ | ⟨-, R₁, t, M, contrDep, hR₁, hM, -, rfl⟩
  · exact ⟨hinv, hinv.control hdone, rfl, rfl⟩
  · obtain ⟨hinv₁, -, hdone, himm⟩ := hinv.immPostDominator hR₁
    obtain ⟨⟨hdom, hsorted, hunsorted, -, -⟩, hflag⟩ := hinv₁.topologicalSort h hM
    exact ⟨⟨hdom, hsorted, hunsorted, fun _ ↦ hflag, fun _ ↦ hflag⟩, hflag, hdone, himm⟩

include h hinv in
/-- So does `Graph_equiv_cd`. -/
theorem SortInv.equivCd_call (hrun : Graph.equivCd S R = .ok R') :
    SortInv S r R' ∧ R'.flags.topoSort = true ∧ R'.immDomDone = R.immDomDone ∧
      R'.immDom = R.immDom := by
  rcases equivCd_cases hrun with ⟨hdone, rfl⟩ | ⟨-, R₁, R₂, hR₁, -, heq, rfl⟩
  · exact ⟨hinv, hinv.equivCd hdone, rfl, rfl⟩
  · obtain ⟨⟨hdom, hsorted, hunsorted, hcontrol, -⟩, hflag, hdone, himm⟩ :=
      hinv.controlDependence h hR₁
    rw [heq]
    exact ⟨⟨hdom, hsorted, hunsorted, hcontrol, fun _ ↦ hflag⟩, hflag, hdone, himm⟩

/-- `imm_dom` after a first `Graph_imm_dominator` with a list from a sort, or without a list. -/
def ImmDomLeft (S : Shape) (r : Id) (sorted : Bool) (immDom : Id → Option Id) : Prop :=
  if sorted then ImmDomRight S r immDom else ∀ v ∈ S.nodes, immDom v = none

include h hinv in
/-- **`Graph_imm_dominator`**, when it is called for the first time. -/
theorem SortInv.immDominator (hdone : R.immDomDone = false)
    (hrun : Graph.immDominator S R = .ok R') :
    SortInv S r R' ∧ R'.flags.topoSort = R.flags.topoSort ∧ R'.immDomDone = true ∧
      ImmDomLeft S r R.flags.topoSort R'.immDom := by
  rcases immDominator_cases hrun with ⟨htrue, -⟩ | ⟨-, M, hM, rfl⟩
  · exact absurd (hdone.symm.trans htrue) Bool.false_ne_true
  · have hk := h.dominator_sortKept hM
    obtain ⟨hdom, hsorted, hunsorted, hcontrol, hequiv⟩ := hinv.setMarks hk
    refine ⟨⟨hdom, hsorted, hunsorted, hcontrol, hequiv⟩, hk.topoSort, rfl, ?_⟩
    rw [ImmDomLeft]
    split_ifs with hflag
    · have hlist := hinv.sorted hflag
      rw [← hk.topoList] at hlist
      intro v hv
      simp only [hv, if_true]
      exact lastBefore_isIdom (hdom (dominator_kept hM).2) (fun w ↦ (hlist.mem_iff w).trans
        ⟨fun hw ↦ mem_nodes_of_reach h.wf (h.wf.root_mem r h.root) hw, h.reach w⟩) hlist.nodup
        (fun w hw ↦ (hlist.mem_iff w).1 hw) hlist.idomsFirst hv
    · -- no list, no immediate dominators
      intro v hv
      have hnil : M.topoList = [] :=
        hk.topoList.trans (hinv.unsorted (Bool.eq_false_iff.2 hflag))
      simp [hv, hnil, lastBefore]

include h hinv in
/-- **An analysis** other than `Graph_imm_dominator` leaves the immediate dominators alone, and sorts if
it is one that sorts. -/
theorem SortInv.analyse {call : Analysis} (hcall : call ≠ .immDominator)
    (hrun : Graph.analyse S R call = .ok R') :
    SortInv S r R' ∧ R'.flags.topoSort = (R.flags.topoSort || decide (call ∈ sorting)) ∧
      R'.immDomDone = R.immDomDone ∧ R'.immDom = R.immDom := by
  have hmarks : ∀ {M}, SortKept S r R.toMarks M → R' = { R with toMarks := M } →
      SortInv S r R' ∧ R'.flags.topoSort = (R.flags.topoSort || false) ∧
        R'.immDomDone = R.immDomDone ∧ R'.immDom = R.immDom := by
    rintro M hk rfl
    exact ⟨hinv.setMarks hk, hk.topoSort.trans (Bool.or_false _).symm, rfl, rfl⟩
  cases call with
  | immDominator => exact absurd rfl hcall
  | dominator =>
    obtain ⟨M, hM, rfl⟩ := Run.map_eq_ok.1 hrun
    exact hmarks (h.dominator_sortKept hM) rfl
  | postDominator =>
    obtain ⟨M, hM, rfl⟩ := Run.map_eq_ok.1 hrun
    exact hmarks (postDominator_sortKept hM) rfl
  | preorderDfsSort directed =>
    obtain ⟨M, hM, rfl⟩ := Run.map_eq_ok.1 hrun
    exact hmarks (h.preorderDfsSort_sortKept hM) rfl
  | countPaths =>
    obtain ⟨M, hM, rfl⟩ := Run.map_eq_ok.1 hrun
    exact hmarks (h.countPaths_sortKept hM) rfl
  | immPostDominator =>
    obtain ⟨hinv', hflag, himm⟩ := hinv.immPostDominator hrun
    exact ⟨hinv', hflag.trans (Bool.or_false _).symm, himm⟩
  | controlDependence =>
    obtain ⟨hinv', hflag, himm⟩ := hinv.controlDependence h hrun
    exact ⟨hinv', hflag.trans (Bool.or_true _).symm, himm⟩
  | equivCd =>
    obtain ⟨hinv', hflag, himm⟩ := hinv.equivCd_call h hrun
    exact ⟨hinv', hflag.trans (Bool.or_true _).symm, himm⟩
  | topologicalSort =>
    obtain ⟨⟨t, M⟩, hM, rfl⟩ := Run.map_eq_ok.1 hrun
    obtain ⟨hinv', hflag⟩ := hinv.topologicalSort h hM
    exact ⟨hinv', hflag.trans (Bool.or_true _).symm, rfl, rfl⟩

variable {ids : NodeIds S} (hids : ids.ExactAt r)

include h hids in
/-- What a call computes first changes nothing that the sorts have stored. -/
theorem IsRooted.setsFirst_sortKept {call : Analysis} (hrun : setsFirst S ids R call = .ok M) :
    SortKept S r R.toMarks M := by
  rw [setsFirst] at hrun
  split_ifs at hrun
  · exact h.dominator_sortKept ((h.dominatorIds_eq hids _).symm.trans hrun)
  · exact postDominatorIds_sortKept hrun
  · exact Except.ok.inj hrun ▸ .refl _

include h hinv hids in
/-- **One call** other than `Graph_imm_dominator`. -/
theorem SortInv.exec {call : GraphCall} (hcall : call.isImmDominator = false)
    (hrun : execCall S ids R call = .ok R') :
    SortInv S r R' ∧ R'.flags.topoSort = (R.flags.topoSort || call.sorts) ∧
      R'.immDomDone = R.immDomDone ∧ R'.immDom = R.immDom := by
  cases call with
  | analysis call =>
    obtain ⟨M, hM, hrun⟩ := Run.bind_eq_ok.1 hrun
    have hk := h.setsFirst_sortKept hids hM
    have hne : call ≠ .immDominator := by
      rintro rfl
      simp [GraphCall.isImmDominator] at hcall
    obtain ⟨hinv', hflag, himm⟩ := (hinv.setMarks hk).analyse h hne hrun
    exact ⟨hinv', by rw [hflag]; exact congrArg (· || _) hk.topoSort, himm⟩
  | bfsTopoSort F =>
    obtain ⟨⟨t, M⟩, hM, rfl⟩ := Run.map_eq_ok.1 hrun
    obtain ⟨hinv', hflag⟩ := hinv.bfsTopoSort h hM
    exact ⟨hinv', hflag.trans (Bool.or_true _).symm, rfl, rfl⟩

include h hinv hids in
/-- **`Graph_imm_dominator`** keeps the immediate dominators there are. -/
theorem SortInv.execImmDominator (hrun : analyseIds S ids R .immDominator = .ok R') :
    SortInv S r R' ∧ R'.immDomDone = true ∧ (R.immDomDone = true → R'.immDom = R.immDom) ∧
      (R.immDomDone = false → ImmDomLeft S r R.flags.topoSort R'.immDom) := by
  obtain ⟨M, hM, hrun⟩ := Run.bind_eq_ok.1 hrun
  have hk := h.setsFirst_sortKept hids hM
  cases hdone : R.immDomDone with
  | true =>
    rcases immDominator_cases hrun with ⟨-, rfl⟩ | ⟨hfalse, -⟩
    · exact ⟨hinv.setMarks hk, hdone, fun _ ↦ rfl, fun h ↦ absurd h.symm Bool.false_ne_true⟩
    · exact absurd (hfalse.symm.trans hdone) Bool.false_ne_true
  | false =>
    obtain ⟨hinv', -, hdone', hleft⟩ := (hinv.setMarks hk).immDominator h hdone hrun
    exact ⟨hinv', hdone', fun h ↦ absurd h Bool.false_ne_true, fun _ ↦ hk.topoSort ▸ hleft⟩

include h hinv hids in
/-- **Calls, and then `Graph_imm_dominator`**: the immediate dominators there are stay, and those of the
first call come from a list if a sort came before it. -/
theorem SortInv.run {calls : List GraphCall} {R₁ : Results}
    (hrun : calls.foldlM (execCall S ids) R = .ok R₁)
    (himm : analyseIds S ids R₁ .immDominator = .ok R') :
    (R.immDomDone = true → R'.immDom = R.immDom) ∧
      (R.immDomDone = false → ImmDomLeft S r (R.flags.topoSort || sortsFirst calls) R'.immDom) := by
  induction calls generalizing R with
  | nil =>
    obtain rfl := Except.ok.inj hrun
    rw [sortsFirst, Bool.or_false]
    exact (hinv.execImmDominator h hids himm).2.2
  | cons call calls ih =>
    rw [List.foldlM_cons] at hrun
    obtain ⟨R₂, hR₂, hrest⟩ := Run.bind_eq_ok.1 hrun
    cases hcall : call.isImmDominator with
    | false =>
      obtain ⟨hinv₂, hflag, hdone, himm₂⟩ := hinv.exec h hids hcall hR₂
      obtain ⟨hkeep, hleft⟩ := ih hinv₂ hrest
      rw [sortsFirst, hcall, Bool.not_false, Bool.true_and, ← Bool.or_assoc, ← hflag]
      exact ⟨fun hd ↦ (hkeep (hdone.trans hd)).trans himm₂, fun hd ↦ hleft (hdone.trans hd)⟩
    | true =>
      obtain rfl : call = .analysis .immDominator := by
        revert hcall
        rcases call with (_ | _ | _ | _ | _ | _ | _ | _ | _) | F <;> simp [GraphCall.isImmDominator]
      obtain ⟨hinv₂, hdone₂, hsame, hfirst⟩ := hinv.execImmDominator h hids hR₂
      have hkeep := (ih hinv₂ hrest).1 hdone₂
      have hsorts : sortsFirst (.analysis .immDominator :: calls) = false := by
        simp [sortsFirst, GraphCall.sorts, GraphCall.isImmDominator, sorting]
      rw [hsorts, Bool.or_false]
      exact ⟨fun hd ↦ hkeep.trans (hsame hd), fun hd ↦ hkeep ▸ hfirst hd⟩

end Calls

/-- The names of the loop as ids, but for the root, a dummy node with the id -1. -/
def loopIds : NodeIds loopGraph := ⟨fun v ↦ if v = 1 then -1 else v, by decide⟩

end OpenImpact.Graph
