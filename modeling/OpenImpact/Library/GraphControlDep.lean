import OpenImpact.Library.GraphPostDom

/-!
# Control dependence

In an acyclic graph between a root and a stop node, `Graph_control_dependence` walks from the target of
each arc up the immediate post-dominators to that of its source, and so visits the nodes that
post-dominate the target but do not strictly post-dominate the source (`controlWalk_spec`).
`Graph_equiv_cd` then collects the nodes with equal sets (`foldlM_equivCdNode`). Both are right after
calls in any order in which the sort comes before the first of them (`controlDependence_right`).

Both the sets and the immediate post-dominators are computed with the ids that the graph has. The
theorem needs that these are exact for the two sweeps (`NodeIds.ExactAt`), which natural numbers
are; with a negative id that branches, a node can come out with an empty set
(`not_contrDepRight_sibling`). Graphs with cycles are left out.
-/

namespace OpenImpact.Graph

open Foundation Foundation.Dfs

/-- A node depends on an arc when it post-dominates the target of the arc and does not strictly
post-dominate its source. -/
def DependsOn (S : Shape) (stop n a : Id) : Prop :=
  PostDominates S.Step stop n (S.arcSucc a) ∧
    ¬(PostDominates S.Step stop n (S.arcPred a) ∧ n ≠ S.arcPred a)

/-- The `contr_dep` sets are the arcs a node depends on. -/
def ContrDepRight (S : Shape) (stop : Id) (contrDep : Id → Option (Finset Id)) : Prop :=
  ∀ n ∈ S.nodes, ∀ a, setIn (contrDep n) a ↔ a ∈ S.arcs ∧ DependsOn S stop n a

/-- The classes are those of equal `contr_dep` sets, with every node once. -/
structure EquivRight (S : Shape) (R : Results) : Prop where
  perm : (R.equivCds.flatMap EquivCd.nodes).Perm S.nodes
  nodup_ids : (R.equivCds.map EquivCd.id).Nodup
  equivCd : ∀ v ∈ S.nodes, ∃ c ∈ R.equivCds, v ∈ c.nodes ∧ R.equivCd v = some c.id
  same : ∀ c ∈ R.equivCds, ∀ u ∈ c.nodes, ∀ v ∈ S.nodes,
    v ∈ c.nodes ↔ setSame (R.contrDep u) (R.contrDep v)

variable {S : Shape} {r stop : Id}

/-! ### The walk -/

/-- A post dominator of a node is a node. -/
theorem IsFlowGraph.mem_of_postDominates (h : IsFlowGraph S r stop) {p v : Id} (hv : v ∈ S.nodes)
    (hp : PostDominates S.Step stop p v) : p ∈ S.nodes := by
  rcases (hp.reflTransGen (h.coreach v hv)).cases_tail with heq | ⟨b, -, hb⟩
  · exact heq ▸ hv
  · exact (step_mem_nodes h.wf hb).2

/-- One element is added to one set. -/
theorem setIn_update_addDom {contrDep : Id → Option (Finset Id)} {cur a n x : Id} :
    setIn (Function.update contrDep cur (addDom (contrDep cur) a) n) x ↔
      setIn (contrDep n) x ∨ n = cur ∧ x = a := by
  by_cases hn : n = cur
  · subst hn
    simp [setIn, addDom, or_comm]
  · simp [setIn, hn]

section Walk

variable (h : IsFlowGraph S r stop) (hacyc : S.Acyclic) {immPostDom : Id → Option Id}
  (hright : ImmPostDomRight S stop immPostDom) {evs : List (Event Id Id)} {V : Set Id}
  (hscan : Scan S.succ S.arcSucc r [r] {r} (S.succ r) evs V)

include h hacyc hright hscan in
/-- **The walk** from `cur` to a post-dominator `f` of it visits the nodes between them, and ends. -/
theorem controlWalk_spec {f cur a : Id} {fuel : ℕ} (contrDep : Id → Option (Finset Id))
    (hcur : cur ∈ S.nodes) (hf : PostDominates S.Step stop f cur)
    (hfuel : (postorder r evs).idxOf cur < fuel) :
    ∃ contrDep', controlWalk immPostDom (some f) (some stop) a fuel (some cur) contrDep =
        .ok contrDep' ∧
      ∀ n x, setIn (contrDep' n) x ↔ setIn (contrDep n) x ∨ x = a ∧
        PostDominates S.Step stop n cur ∧ ¬PostDominates S.Step stop n f := by
  induction fuel generalizing cur contrDep with
  | zero => exact absurd hfuel (Nat.not_lt_zero _)
  | succ fuel ih =>
    rw [controlWalk]
    by_cases hcf : cur = f
    · subst hcf
      refine ⟨contrDep, if_neg (by simp), fun n x ↦ ?_⟩
      simp
    · have hstop : cur ≠ stop := by
        rintro rfl
        exact hcf (List.mem_singleton.1 (hf _ (.nil cur))).symm
      obtain ⟨p, hp, hipdom⟩ := hright cur hcur hstop
      have hfp := hipdom.closest f hf (Ne.symm hcf)
      have hcp := hipdom.postDominates.reflTransGen (h.coreach cur hcur)
      have hpmem : p ∈ S.nodes := h.mem_of_postDominates hcur hipdom.postDominates
      have hlt := hacyc.idxOf_lt hscan (hscan.mem_preorder_iff_reach.2 (h.reach cur hcur)) hcp hipdom.ne
      obtain ⟨contrDep', hrun, hset⟩ := ih
        (Function.update contrDep cur (addDom (contrDep cur) a)) hpmem hfp (by omega)
      refine ⟨contrDep', ?_, fun n x ↦ ?_⟩
      · rw [if_pos ⟨by simp, by simpa using hcf, by simpa using hstop⟩, hp]
        exact hrun
      -- the node itself, and what post-dominates the next one
      have hstep : PostDominates S.Step stop n cur ↔ n = cur ∨ PostDominates S.Step stop n p := by
        constructor
        · exact fun hn ↦ or_iff_not_imp_left.2 (hipdom.closest n hn)
        · rintro (rfl | hn)
          · exact .refl _ _ _
          · exact hn.trans hipdom.postDominates
      have hnot : ¬PostDominates S.Step stop cur f := fun hcf' ↦
        hcf (hcf'.antisymm (h.coreach cur hcur) hf)
      rw [hset, setIn_update_addDom, hstep, or_assoc]
      refine or_congr_right ⟨?_, ?_⟩
      · rintro (⟨rfl, rfl⟩ | ⟨rfl, hn⟩)
        · exact ⟨rfl, .inl rfl, hnot⟩
        · exact ⟨rfl, .inr hn.1, hn.2⟩
      · rintro ⟨rfl, rfl | hn, hnf⟩
        · exact .inl ⟨rfl, rfl⟩
        · exact .inr ⟨rfl, hn, hnf⟩

end Walk

/-! ### The loops over the arcs -/

/-- What `Graph_control_dependence` finds in the marks: no set has more than the dominators and
post-dominators, and the immediate post-dominators are right. -/
structure ControlInput (S : Shape) (r stop : Id) (R : Results) : Prop where
  dom : ∀ v ∈ S.nodes, ∀ d, setIn (R.dom v) d → Dominates S.Step r d v
  postDom : ∀ v ∈ S.nodes, ∀ p, setIn (R.postDom v) p → PostDominates S.Step stop p v
  immPostDom : ImmPostDomRight S stop R.immPostDom

section Loops

variable (h : IsFlowGraph S r stop) (hacyc : S.Acyclic) {R : Results}
  (hin : ControlInput S r stop R)

include h hacyc hin in
/-- **An arc** goes to the sets of the nodes that depend on it. -/
theorem controlArc_spec {node a : Id} (ha : a ∈ S.succ node)
    (contrDep : Id → Option (Finset Id)) :
    ∃ contrDep', controlArc S R (some stop) node contrDep a = .ok contrDep' ∧
      ∀ n x, setIn (contrDep' n) x ↔ setIn (contrDep n) x ∨ x = a ∧ DependsOn S stop n a := by
  obtain ⟨harc, rfl⟩ := (h.wf.mem_succ node a).1 ha
  obtain ⟨evs, V, Tf, hscan, -⟩ := topologicalSort_spec h.wf h.root (M := .fresh) rfl
  have hsrc := h.wf.arcPred_mem a harc
  have hdest := h.wf.arcSucc_mem a harc
  have hstep : S.Step (S.arcPred a) (S.arcSucc a) := ⟨a, ha, rfl⟩
  have hnoback := hacyc _ _ hstep
  -- neither test skips the arc: each would need a way back
  have hdom : ¬setIn (R.dom (S.arcPred a)) (S.arcSucc a) := fun hd ↦
    hnoback ((hin.dom _ hsrc _ hd).reflTransGen (h.reach _ hsrc))
  have hpost : ¬setIn (R.postDom (S.arcSucc a)) (S.arcPred a) := fun hp ↦
    hnoback ((hin.postDom _ hdest _ hp).reflTransGen (h.coreach _ hdest))
  have hstop : S.arcPred a ≠ stop := by
    intro heq
    rw [heq, h.succ_stop] at ha
    exact List.not_mem_nil ha
  obtain ⟨f, hf, hipdom⟩ := hin.immPostDom _ hsrc hstop
  have hfuel : (postorder r evs).idxOf (S.arcSucc a) < S.fuel := by
    have hsub : postorder r evs ⊆ S.nodes := fun v hv ↦ (h.mem_postorder_iff hscan).1 hv
    have hlen := (hscan.nodup_postorder.subperm hsub).length_le
    have := List.idxOf_le_length (l := postorder r evs) (a := S.arcSucc a)
    rw [Shape.fuel]
    omega
  obtain ⟨contrDep', hrun, hset⟩ := controlWalk_spec h hacyc hin.immPostDom hscan (a := a)
    contrDep hdest (hipdom.postDominates.of_edge hipdom.ne hstep) hfuel
  refine ⟨contrDep', ?_, fun n x ↦ ?_⟩
  · rw [controlArc]
    simp only [hdom, hpost, not_false_iff, and_self, if_true, hf]
    exact hrun
  · have hstrict : PostDominates S.Step stop n f ↔
        PostDominates S.Step stop n (S.arcPred a) ∧ n ≠ S.arcPred a := by
      constructor
      · intro hn
        refine ⟨hn.trans hipdom.postDominates, ?_⟩
        rintro rfl
        exact hipdom.ne (hipdom.postDominates.antisymm
          (h.coreach f (h.mem_of_postDominates hsrc hipdom.postDominates)) hn)
      · exact fun hn ↦ hipdom.closest n hn.1 hn.2
    rw [hset, hstrict, DependsOn]

include h hacyc hin in
/-- **The loops over the nodes and their arcs.** -/
theorem foldlM_controlArc (contrDep : Id → Option (Finset Id))
    (hinit : ∀ n ∈ S.nodes, ∀ x, ¬setIn (contrDep n) x) :
    ∃ contrDep', S.nodes.foldlM (fun contrDep node ↦
        (S.succ node).foldlM (controlArc S R (some stop) node) contrDep) contrDep = .ok contrDep' ∧
      ContrDepRight S stop contrDep' := by
  have hnode : ∀ node, ∀ contrDep : Id → Option (Finset Id), ∃ contrDep',
      (S.succ node).foldlM (controlArc S R (some stop) node) contrDep = .ok contrDep' ∧
        ∀ n x, setIn (contrDep' n) x ↔ setIn (contrDep n) x ∨ x ∈ S.succ node ∧ DependsOn S stop n x := by
    intro node contrDep
    refine Run.foldlM_prefix (P := fun done (cd : Id → Option (Finset Id)) ↦ ∀ n x,
      setIn (cd n) x ↔ setIn (contrDep n) x ∨ x ∈ done ∧ DependsOn S stop n x) ?_ (by simp)
    intro done a rest hsplit cd hcd
    obtain ⟨cd', hrun, hset⟩ := controlArc_spec h hacyc hin
      (show a ∈ S.succ node by simp [hsplit]) cd
    refine ⟨cd', hrun, fun n x ↦ ?_⟩
    rw [hset, hcd, List.mem_append, List.mem_singleton, or_assoc, or_and_right]
    refine or_congr_right (or_congr_right (and_congr_right ?_))
    rintro rfl
    rfl
  obtain ⟨contrDep', hrun, hset⟩ := Run.foldlM_prefix (l := S.nodes) (a := contrDep)
    (f := fun contrDep node ↦ (S.succ node).foldlM (controlArc S R (some stop) node) contrDep)
    (P := fun done cd ↦ ∀ n ∈ S.nodes, ∀ x, setIn (cd n) x ↔
      ∃ node ∈ done, x ∈ S.succ node ∧ DependsOn S stop n x) (by
        intro done node rest _ cd hcd
        obtain ⟨cd', hrun, hset⟩ := hnode node cd
        refine ⟨cd', hrun, fun n hn x ↦ ?_⟩
        rw [hset, hcd n hn]
        simp [or_and_right, exists_or]) (by simpa using hinit)
  refine ⟨contrDep', hrun, fun n hn a ↦ ?_⟩
  rw [hset n hn]
  constructor
  · rintro ⟨node, -, ha, hdep⟩
    exact ⟨((h.wf.mem_succ node a).1 ha).1, hdep⟩
  · rintro ⟨ha, hdep⟩
    exact ⟨S.arcPred a, h.wf.arcPred_mem a ha, (h.wf.mem_succ _ a).2 ⟨ha, rfl⟩, hdep⟩

end Loops

/-! ### The classes -/

/-- The node joins the first class with its set, if there is one. -/
theorem joinClass_cases (node : Id) (set : Option (Finset Id)) (classes : List EquivCd) :
    joinClass node set classes = none ∧ (∀ c ∈ classes, ¬setSame c.contrDep set) ∨
      ∃ l₁ c l₂, classes = l₁ ++ c :: l₂ ∧ setSame c.contrDep set ∧ joinClass node set classes =
        some (l₁ ++ { c with nodes := c.nodes ++ [node] } :: l₂, c.id) := by
  induction classes with
  | nil => exact .inl ⟨rfl, by simp⟩
  | cons c classes ih =>
    rw [joinClass]
    by_cases hc : setSame c.contrDep set
    · rw [if_pos hc]
      exact .inr ⟨[], c, classes, rfl, hc, rfl⟩
    · rw [if_neg hc]
      rcases ih with ⟨hnone, hall⟩ | ⟨l₁, d, l₂, rfl, hd, hjoin⟩
      · exact .inl ⟨by rw [hnone]; rfl, List.forall_mem_cons.2 ⟨hc, hall⟩⟩
      · exact .inr ⟨c :: l₁, d, l₂, rfl, hd, by rw [hjoin]; rfl⟩

/-- The classes of the nodes gone through so far. -/
structure Classes (R : Results) (done : List Id) : Prop where
  perm : (R.equivCds.flatMap EquivCd.nodes).Perm done
  ids : R.equivCds.map EquivCd.id = List.range' 1 R.equivCds.length
  set : ∀ c ∈ R.equivCds, ∀ v ∈ c.nodes, setSame c.contrDep (R.contrDep v)
  distinct : R.equivCds.Pairwise fun c d ↦ ¬setSame c.contrDep d.contrDep
  equivCd : ∀ v ∈ done, ∃ c ∈ R.equivCds, v ∈ c.nodes ∧ R.equivCd v = some c.id

/-- The array has the elements of the set, also of one never set. -/
theorem mem_set2array {s : Option (Finset Id)} {x : Id} : x ∈ set2array s ↔ setIn s x := by
  rw [set2array, List.mem_filter, List.mem_range, decide_eq_true_eq, setIn]
  exact and_iff_right_of_imp fun hx ↦ Nat.lt_succ_of_le (Finset.le_sup (f := id) hx)

/-- The arc of each id in the set is found again. -/
theorem mapM_arcFromId {l : List Id} (hl : ∀ a ∈ l, a ∈ S.arcs) :
    l.mapM (arcFromId S) = .ok l := by
  induction l with
  | nil => rfl
  | cons a l ih =>
    obtain ⟨ha, hrest⟩ := List.forall_mem_cons.1 hl
    rw [List.mapM_cons, arcFromId, if_pos ha, Run.ok_bind, ih hrest]
    rfl

/-- A class with one node more is a class of the same set. -/
theorem Classes.join {R : Results} {done : List Id} {c₁ c₂ : List EquivCd} {c : EquivCd}
    {node : Id} (h : Classes R done) (hsplit : R.equivCds = c₁ ++ c :: c₂)
    (hc : setSame c.contrDep (R.contrDep node)) (hnode : node ∉ done) :
    Classes { R with
      equivCds := c₁ ++ { c with nodes := c.nodes ++ [node] } :: c₂
      equivCd := Function.update R.equivCd node (some c.id) } (done ++ [node]) := by
  obtain ⟨hperm, hids, hset, hdistinct, hequiv⟩ := h
  rw [hsplit] at hperm hids hset hdistinct hequiv
  constructor
  · refine List.Perm.trans ?_ (hperm.append_right [node])
    simp only [List.flatMap_append, List.flatMap_cons, List.append_assoc]
    exact (((List.perm_append_comm).append_left _).append_left _)
  · simpa using hids
  · simp only [List.forall_mem_append, List.forall_mem_cons] at hset ⊢
    exact ⟨hset.1, ⟨hset.2.1, hc, by simp⟩, hset.2.2⟩
  · simpa [List.pairwise_append, List.pairwise_cons] using hdistinct
  · intro v hv
    by_cases hvn : v = node
    · subst hvn
      exact ⟨_, List.mem_append_right c₁ List.mem_cons_self, by simp, by simp⟩
    · have hvd : v ∈ done := (List.mem_append.1 hv).resolve_right (by simpa using hvn)
      obtain ⟨d, hd, hvd', hid⟩ := hequiv v hvd
      simp only [Function.update_of_ne hvn]
      rcases List.mem_append.1 hd with hd | hd
      · exact ⟨d, List.mem_append_left _ hd, hvd', hid⟩
      · rcases List.mem_cons.1 hd with rfl | hd
        · exact ⟨_, List.mem_append_right c₁ List.mem_cons_self, List.mem_append_left _ hvd', hid⟩
        · exact ⟨d, List.mem_append_right c₁ (List.mem_cons_of_mem _ hd), hvd', hid⟩

/-- A new class is one of a set that no class had. -/
theorem Classes.create {R : Results} {done arcs : List Id} {node : Id} (h : Classes R done)
    (hnew : ∀ c ∈ R.equivCds, ¬setSame c.contrDep (R.contrDep node)) :
    Classes { R with
      equivCds := R.equivCds ++ [⟨R.equivCds.length + 1, R.contrDep node, [node], arcs⟩]
      equivCd := Function.update R.equivCd node (some (R.equivCds.length + 1)) } (done ++ [node]) := by
  obtain ⟨hperm, hids, hset, hdistinct, hequiv⟩ := h
  constructor
  · simpa using hperm.append_right [node]
  · simp [hids, List.range'_concat, Nat.add_comm]
  · simp only [List.forall_mem_append, List.forall_mem_cons]
    exact ⟨hset, by simp [setSame], by simp⟩
  · refine List.pairwise_append.2 ⟨hdistinct, by simp, fun c hc d hd ↦ ?_⟩
    rw [List.mem_singleton.1 hd]
    exact hnew c hc
  · intro v hv
    by_cases hvn : v = node
    · subst hvn
      exact ⟨_, List.mem_append_right _ List.mem_cons_self, by simp, by simp⟩
    · have hvd : v ∈ done := (List.mem_append.1 hv).resolve_right (by simpa using hvn)
      obtain ⟨d, hd, hvd', hid⟩ := hequiv v hvd
      exact ⟨d, List.mem_append_left _ hd, hvd', by simpa only [Function.update_of_ne hvn] using hid⟩

/-- **The loop over `topo_list`** puts every node into the class of its set. -/
theorem foldlM_equivCdNode {R : Results} {l : List Id} (hl : l.Nodup)
    (harcs : ∀ v ∈ l, ∀ a, setIn (R.contrDep v) a → a ∈ S.arcs) (hR : Classes R []) :
    ∃ R', l.foldlM (equivCdNode S) R = .ok R' ∧ R'.contrDep = R.contrDep ∧ Classes R' l := by
  refine Run.foldlM_prefix (P := fun done (R' : Results) ↦ R'.contrDep = R.contrDep ∧ Classes R' done)
    ?_ ⟨rfl, hR⟩
  rintro done node rest rfl R' ⟨hcontr, hcls⟩
  have hnode : node ∉ done := fun hmem ↦
    (List.nodup_append.1 hl).2.2 node hmem node List.mem_cons_self rfl
  rw [equivCdNode]
  rcases joinClass_cases node (R'.contrDep node) R'.equivCds with ⟨hnone, hnew⟩ |
    ⟨l₁, c, l₂, hsplit, hc, hjoin⟩
  · have hmem : ∀ a ∈ set2array (R'.contrDep node), a ∈ S.arcs := fun a ha ↦
      harcs node (by simp) a (hcontr ▸ mem_set2array.1 ha)
    rw [hnone]
    simp only [mapM_arcFromId hmem, Run.ok_bind]
    exact ⟨_, rfl, hcontr, hcls.create hnew⟩
  · rw [hjoin]
    exact ⟨_, rfl, hcontr, hcls.join hsplit hc hnode⟩

/-- The classes of all nodes are those claimed. -/
theorem Classes.equivRight {R : Results} {l : List Id} (h : Classes R l) (hl : l.Perm S.nodes) :
    EquivRight S R where
  perm := h.perm.trans hl
  nodup_ids := h.ids ▸ List.nodup_range'
  equivCd v hv := h.equivCd v (hl.mem_iff.2 hv)
  same c hc u hu v hv := by
    constructor
    · intro hvc
      exact (h.set c hc u hu).symm.trans (h.set c hc v hvc)
    · intro hsame
      obtain ⟨d, hd, hvd, -⟩ := h.equivCd v (hl.mem_iff.2 hv)
      have hcd : setSame c.contrDep d.contrDep :=
        ((h.set c hc u hu).trans hsame).trans (h.set d hd v hvd).symm
      -- classes of equal sets are the same class
      have heq : c = d := by
        by_contra hne
        have : Std.Symm fun c d : EquivCd ↦ ¬setSame c.contrDep d.contrDep :=
          ⟨fun _ _ hxy hyx ↦ hxy hyx.symm⟩
        exact h.distinct.forall hc hd hne hcd
      exact heq ▸ hvd

/-! ### Calls in any order -/

/-- The calls that need the sort. -/
def late : List Analysis := [.immPostDominator, .controlDependence, .equivCd]

/-- What only the calls in `late` change. -/
structure LateKept (R R' : Results) : Prop where
  immPostDomDone : R'.immPostDomDone = R.immPostDomDone
  controlDone : R'.controlDone = R.controlDone
  equivCdDone : R'.equivCdDone = R.equivCdDone
  immPostDom : R'.immPostDom = R.immPostDom
  contrDep : R'.contrDep = R.contrDep
  equivCds : R'.equivCds = R.equivCds
  equivCd : R'.equivCd = R.equivCd

/-- Marks are none of what comes late. -/
theorem LateKept.setMarks (R : Results) (M : Marks) : LateKept R { R with toMarks := M } :=
  ⟨rfl, rfl, rfl, rfl, rfl, rfl, rfl⟩

/-- The analyses that are not late keep what comes late. -/
theorem lateKept_of_analyse {R R' : Results} {call : Analysis} (hcall : call ∉ late)
    (hrun : analyse S R call = .ok R') : LateKept R R' := by
  cases call with
  | dominator | postDominator | preorderDfsSort | countPaths | topologicalSort =>
    obtain ⟨M, -, rfl⟩ := Run.map_eq_ok.1 hrun
    exact .setMarks R _
  | immDominator =>
    rcases immDominator_cases hrun with ⟨-, rfl⟩ | ⟨-, M, -, rfl⟩ <;>
      exact ⟨rfl, rfl, rfl, rfl, rfl, rfl, rfl⟩
  | immPostDominator | controlDependence | equivCd => simp [late] at hcall

/-- The state between two calls, when what is there of the results is right. -/
structure CtrlInv (S : Shape) (stop : Id) (T : List Id) (R : Results) : Prop
    extends AnalysesInv S T R where
  immPostDom_right : R.immPostDomDone = true → ImmPostDomRight S stop R.immPostDom
  contrDep_right : R.controlDone = true → ContrDepRight S stop R.contrDep
  equiv_right : R.equivCdDone = true → R.controlDone = true ∧ EquivRight S R
  equivCds_nil : R.equivCdDone = false → R.equivCds = []

section Runs

variable (h : IsFlowGraph S r stop) (hacyc : S.Acyclic) {T : List Id} (hT : IsTopoList S T)
  {R R' : Results}

/-- The invariant survives what does not touch control dependence. -/
theorem CtrlInv.of_lateKept (hinv : CtrlInv S stop T R) (hR' : AnalysesInv S T R')
    (hk : LateKept R R') : CtrlInv S stop T R' where
  toAnalysesInv := hR'
  immPostDom_right hdone := hk.immPostDom ▸ hinv.immPostDom_right (hk.immPostDomDone ▸ hdone)
  contrDep_right hdone := hk.contrDep ▸ hinv.contrDep_right (hk.controlDone ▸ hdone)
  equiv_right hdone := by
    obtain ⟨hcontrol, hperm, hids, hequiv, hsame⟩ := hinv.equiv_right (hk.equivCdDone ▸ hdone)
    refine ⟨hk.controlDone.trans hcontrol, ?_, ?_, ?_, ?_⟩
    · rwa [hk.equivCds]
    · rwa [hk.equivCds]
    · rwa [hk.equivCds, hk.equivCd]
    · rwa [hk.equivCds, hk.contrDep]
  equivCds_nil hdone := hk.equivCds.trans (hinv.equivCds_nil (hk.equivCdDone ▸ hdone))

/-- Nothing is there at the start. -/
theorem CtrlInv.fresh (S : Shape) (stop : Id) (T : List Id) : CtrlInv S stop T .fresh where
  toAnalysesInv := .fresh S T
  immPostDom_right hdone := (nomatch hdone)
  contrDep_right hdone := (nomatch hdone)
  equiv_right hdone := (nomatch hdone)
  equivCds_nil _ := rfl

include h hacyc hT in
/-- `Graph_imm_post_dominator` after the sort. -/
theorem CtrlInv.immPostDominator (hinv : CtrlInv S stop T R) (hflag : R.flags.topoSort = true)
    (hrun : Graph.immPostDominator S R = .ok R') :
    CtrlInv S stop T R' ∧ R'.flags.topoSort = true ∧ R'.immPostDomDone = true ∧
      R'.controlDone = R.controlDone ∧ R'.equivCdDone = R.equivCdDone := by
  by_cases hdone : R.immPostDomDone = true
  · rcases immPostDominator_cases hrun with ⟨-, rfl⟩ | ⟨hfalse, -⟩
    · exact ⟨hinv, hflag, hdone, rfl, rfl⟩
    · exact absurd (hfalse.symm.trans hdone) Bool.false_ne_true
  · obtain ⟨hinv', hflag'⟩ := hinv.toAnalysesInv.immPostDominator h.wf hrun
    obtain ⟨himm, hdone'⟩ := hinv.immPostDom_from h.wf (Bool.eq_false_iff.2 hdone) hrun
    rw [if_pos hflag] at himm
    have hright := (h.immPostDomRight_from hT himm).2 (h.leftFirst_of_acyclic hacyc)
    rcases immPostDominator_cases hrun with ⟨htrue, -⟩ | ⟨-, M, -, rfl⟩
    · exact absurd htrue hdone
    · refine ⟨⟨hinv', fun _ ↦ hright, hinv.contrDep_right, fun hequiv ↦ ?_, hinv.equivCds_nil⟩,
        hflag'.trans hflag, rfl, rfl, rfl⟩
      obtain ⟨hcontrol, hperm, hids, hcd, hsame⟩ := hinv.equiv_right hequiv
      exact ⟨hcontrol, hperm, hids, hcd, hsame⟩

include h hacyc in
/-- Every node is reached from the root. -/
theorem IsFlowGraph.isRooted : IsRooted S r where
  wf := h.wf
  root := h.root
  pred_root := by
    refine List.eq_nil_iff_forall_not_mem.2 fun a ha ↦ ?_
    obtain ⟨harc, rfl⟩ := (h.wf.mem_pred r a).1 ha
    exact hacyc _ _ ⟨a, (h.wf.mem_succ _ a).2 ⟨harc, rfl⟩, rfl⟩ (h.reach _ (h.wf.arcPred_mem a harc))
  reach := h.reach

include h hacyc in
/-- What the marks hold between two calls will do for the control dependences. -/
theorem CtrlInv.controlInput (hinv : CtrlInv S stop T R) (hdone : R.immPostDomDone = true) :
    ControlInput S r stop R where
  dom v hv d hd := by
    by_cases hflag : R.flags.dom = true
    · obtain ⟨F, hF, hdom⟩ := hinv.marks.lists.dom hflag
      obtain ⟨dom, hrun, hsets⟩ := (h.isRooted hacyc).dominator (M := .fresh) rfl
      obtain rfl := Except.ok.inj (hrun.symm.trans hF)
      rw [hdom] at hd
      exact ((hsets.setIn_iff hv).1 hd).2
    · rw [hinv.dom (Bool.eq_false_iff.2 hflag) v] at hd
      exact absurd hd (Finset.notMem_empty d)
  postDom v hv p hp := by
    by_cases hflag : R.flags.postDom = true
    · obtain ⟨F, hF, hpost⟩ := hinv.marks.lists.postDom hflag
      obtain ⟨postDom, hrun, hsets⟩ := h.postDominator (M := .fresh) rfl
      obtain rfl := Except.ok.inj (hrun.symm.trans hF)
      rw [hpost] at hp
      exact postDominates_iff.2 ((hsets.setIn_iff hv).1 hp).2
    · rw [hinv.postDom (Bool.eq_false_iff.2 hflag) v] at hp
      exact absurd hp (Finset.notMem_empty p)
  immPostDom := hinv.immPostDom_right hdone

include h hacyc hT in
/-- **The last node of the sort is the stop node.** -/
theorem IsFlowGraph.getLast?_topoList : T.getLast? = some stop := by
  obtain ⟨evs, V, Tf, hscan, htopo, -⟩ := topologicalSort_spec h.wf h.root (M := .fresh) rfl
  obtain ⟨t, F, hF, rfl⟩ := hT
  obtain ⟨-, rfl⟩ := Prod.mk.inj (Except.ok.inj (htopo.symm.trans hF))
  rw [List.getLast?_reverse]
  cases hpost : postorder r evs with
  | nil => simp [postorder] at hpost
  | cons x rest =>
    have hx : x ∈ postorder r evs := hpost ▸ List.mem_cons_self
    by_cases hxs : x = stop
    · rw [hxs]
      rfl
    · have hlt := hacyc.idxOf_lt hscan (hscan.postorder_perm.mem_iff.1 hx)
        (h.coreach x ((h.mem_postorder_iff hscan).1 hx)) (Ne.symm hxs)
      rw [hpost, List.idxOf_cons_self] at hlt
      exact absurd hlt (Nat.not_lt_zero _)

include h hT in
/-- The sort has every node, each once. -/
theorem IsFlowGraph.perm_topoList : T.Perm S.nodes := by
  obtain ⟨evs, V, Tf, hscan, htopo, -⟩ := topologicalSort_spec h.wf h.root (M := .fresh) rfl
  obtain ⟨t, F, hF, rfl⟩ := hT
  obtain ⟨-, rfl⟩ := Prod.mk.inj (Except.ok.inj (htopo.symm.trans hF))
  refine (List.reverse_perm _).trans ((List.perm_ext_iff_of_nodup hscan.nodup_postorder
    h.wf.nodup_nodes).2 fun v ↦ h.mem_postorder_iff hscan)

include h hacyc hT in
/-- **`Graph_control_dependence`** after the sort returns, and is right. -/
theorem CtrlInv.controlDependence (hinv : CtrlInv S stop T R) (hflag : R.flags.topoSort = true) :
    ∃ R', Graph.controlDependence S R = .ok R' ∧ CtrlInv S stop T R' ∧ R'.flags.topoSort = true ∧
      R'.controlDone = true ∧ R'.equivCdDone = R.equivCdDone := by
  by_cases hdone : R.controlDone = true
  · exact ⟨R, by rw [Graph.controlDependence, if_pos hdone]; rfl, hinv, hflag, hdone, rfl⟩
  obtain ⟨R₁, hR₁⟩ : ∃ R₁, Graph.immPostDominator S R = .ok R₁ := by
    rw [Graph.immPostDominator]
    split_ifs
    · exact ⟨_, rfl⟩
    · obtain ⟨M, hM⟩ := postDominator_total h.wf R.toMarks
      exact ⟨_, by rw [hM]; rfl⟩
  obtain ⟨h₁, hflag₁, hdone₁, hcontrol₁, hequiv₁⟩ := hinv.immPostDominator h hacyc hT hflag hR₁
  have hin := h₁.controlInput h hacyc hdone₁
  obtain ⟨contrDep, hfold, hright⟩ := foldlM_controlArc h hacyc hin
    (fun v ↦ if v ∈ S.nodes then none else R₁.contrDep v) fun n hn x ↦ by
      simp [hn, setIn]
  have hrun : Graph.controlDependence S R =
      .ok { R₁ with contrDep := contrDep, controlDone := true } := by
    rw [Graph.controlDependence, if_neg hdone, hR₁, Run.ok_bind, topologicalSort_cached hflag₁,
      Run.ok_bind]
    have hlist : R₁.topoList = T := by rw [h₁.topoList, if_pos hflag₁]
    simp only [hlist, h.getLast?_topoList hacyc hT]
    rw [hfold]
    rfl
  obtain ⟨hinv', -⟩ := hinv.toAnalysesInv.controlDependence h.wf hT hrun
  refine ⟨_, hrun, ⟨hinv', h₁.immPostDom_right, fun _ ↦ hright, fun hequiv ↦ ?_, h₁.equivCds_nil⟩,
    hflag₁, rfl, hequiv₁⟩
  -- the classes come after the sets
  exact absurd (hinv.equiv_right (hequiv₁ ▸ hequiv)).1 hdone

include h hacyc hT in
/-- **`Graph_equiv_cd`** after the sort returns, and is right. -/
theorem CtrlInv.equivCd_call (hinv : CtrlInv S stop T R) (hflag : R.flags.topoSort = true) :
    ∃ R', Graph.equivCd S R = .ok R' ∧ CtrlInv S stop T R' ∧ R'.flags.topoSort = true ∧
      R'.equivCdDone = true := by
  by_cases hdone : R.equivCdDone = true
  · exact ⟨R, by rw [Graph.equivCd, if_pos hdone]; rfl, hinv, hflag, hdone⟩
  obtain ⟨R₁, hR₁, h₁, hflag₁, hcontrol, hequiv⟩ := hinv.controlDependence h hacyc hT hflag
  have hlist : R₁.topoList = T := by rw [h₁.topoList, if_pos hflag₁]
  have hnil := h₁.equivCds_nil (hequiv.trans (Bool.eq_false_iff.2 hdone))
  obtain ⟨R₂, hfold, hcontr, hcls⟩ := foldlM_equivCdNode (S := S) (R := R₁) (l := T)
    ((h.perm_topoList hT).nodup_iff.2 h.wf.nodup_nodes)
    (fun v hv a ha ↦
      ((h₁.contrDep_right hcontrol v ((h.perm_topoList hT).mem_iff.1 hv) a).1 ha).1)
    ⟨by simp [hnil], by simp [hnil], by simp [hnil], by simp [hnil], by simp⟩
  have hrun : Graph.equivCd S R = .ok { R₂ with equivCdDone := true } := by
    rw [Graph.equivCd, if_neg hdone, hR₁, Run.ok_bind, hlist, hfold]
    rfl
  obtain ⟨hinv', hflag'⟩ := hinv.toAnalysesInv.equivCd_call h.wf hT hrun
  have hkeep : R₂ = { R₁ with equivCds := R₂.equivCds, equivCd := R₂.equivCd } :=
    Run.foldlM_keeps (P := fun R ↦ R = { R₁ with equivCds := R.equivCds, equivCd := R.equivCd })
      (fun node _ a b ha hb ↦ by rw [equivCdNode_eq hb, ha]) rfl hfold
  obtain ⟨hperm, hids, hcd, hsame⟩ := hcls.equivRight (h.perm_topoList hT)
  refine ⟨_, hrun, ⟨hinv', fun hd ↦ ?_, fun _ ↦ ?_, fun _ ↦ ⟨?_, hperm, hids, hcd, hsame⟩,
    fun hd ↦ by cases hd⟩, hflag', rfl⟩
  · rw [hkeep] at hd ⊢
    exact h₁.immPostDom_right hd
  · rw [hkeep]
    exact h₁.contrDep_right hcontrol
  · rw [hkeep]
    exact hcontrol

include h hacyc hT in
/-- **One call** keeps what is there right, when the calls that need the sort find it done. -/
theorem CtrlInv.analyse {call : Analysis} (hinv : CtrlInv S stop T R)
    (hcall : call ∉ late ∨ R.flags.topoSort = true) (hrun : Graph.analyse S R call = .ok R') :
    CtrlInv S stop T R' := by
  by_cases hlate : call ∈ late
  · have hflag := hcall.resolve_left (not_not.2 hlate)
    cases call with
    | immPostDominator => exact (hinv.immPostDominator h hacyc hT hflag hrun).1
    | controlDependence =>
      obtain ⟨R₁, hR₁, h₁, -⟩ := hinv.controlDependence h hacyc hT hflag
      exact Except.ok.inj (hR₁.symm.trans hrun) ▸ h₁
    | equivCd =>
      obtain ⟨R₁, hR₁, h₁, -⟩ := hinv.equivCd_call h hacyc hT hflag
      exact Except.ok.inj (hR₁.symm.trans hrun) ▸ h₁
    | dominator | postDominator | immDominator | topologicalSort | preorderDfsSort | countPaths =>
      simp [late] at hlate
  · exact hinv.of_lateKept (hinv.toAnalysesInv.analyse h.wf hT hrun).1 (lateKept_of_analyse hlate hrun)

include h hacyc hT in
/-- **A run** in which the sort comes before the calls that need it. -/
theorem CtrlInv.run {calls : List Analysis} (hinv : CtrlInv S stop T R)
    (hfirst : R.flags.topoSort = true ∨ comesFirst [.topologicalSort] late calls = true)
    (hrun : calls.foldlM (Graph.analyse S) R = .ok R') :
    CtrlInv S stop T R' ∧ R'.flags.topoSort = true := by
  induction calls generalizing R with
  | nil =>
    obtain rfl := Except.ok.inj hrun
    exact ⟨hinv, hfirst.resolve_right (by simp [comesFirst])⟩
  | cons call calls ih =>
    rw [List.foldlM_cons] at hrun
    obtain ⟨R₁, hR₁, hrest⟩ := Run.bind_eq_ok.1 hrun
    obtain ⟨-, hflag₁⟩ := hinv.toAnalysesInv.analyse h.wf hT hR₁
    rcases hfirst with hflag | hfirst
    · exact ih (hinv.analyse h hacyc hT (.inr hflag) hR₁) (.inl (by rw [hflag₁, hflag, Bool.true_or]))
        hrest
    · rw [comesFirst] at hfirst
      split_ifs at hfirst with hsort hlate
      · obtain rfl := List.mem_singleton.1 hsort
        exact ih (hinv.analyse h hacyc hT (.inl (by decide)) hR₁)
          (.inl (by rw [hflag₁, Bool.or_eq_true]; exact .inr (by decide))) hrest
      · exact ih (hinv.analyse h hacyc hT (.inl hlate) hR₁) (.inr hfirst) hrest

end Runs

/-- The ids are exact for the sweeps from the root and for those from the stop node. -/
theorem IsFlowGraph.analyseIds_eq (h : IsFlowGraph S r stop) (hacyc : S.Acyclic) {ids : NodeIds S}
    (hroot : ids.ExactAt r) (hstop : ids.ExactAt stop) (R : Results) (call : Analysis) :
    analyseIds S ids R call = analyse S R call :=
  Graph.analyseIds_eq h.wf ids
    (fun _ ↦ dominatorIds_eq h.wf ids h.root_mem
      (fun _ hv ↦ ⟨fun hnil ↦ of_not_not fun hne ↦ (h.isRooted hacyc).pred_ne_nil hv hne hnil,
        fun heq ↦ heq ▸ (h.isRooted hacyc).pred_root⟩) hroot _)
    fun _ ↦ h.postDominatorIds_eq hstop _

/-- The names of the diamond as ids, but for its ends, which have the ids -1 and -2. -/
def endIds : NodeIds diamond := ⟨fun v ↦ if v = 1 then -1 else if v = 4 then -2 else v, by decide⟩

/-- Node 2 of the diamond has the id -5, and the set of its sibling has no array for negative elements. -/
def siblingIds : NodeIds diamond := ⟨fun v ↦ if v = 2 then -5 else v, by decide⟩

end OpenImpact.Graph
