import OpenImpact.Foundation.PostDominator
import OpenImpact.Libflow.Dataflow

/-!
# Graphs that have been built, and their dominators

What the calls that build a graph keep (`DfGraph.WF`), and the two dominator analyses, which are one
iteration over the incoming or over the outgoing arcs (`domLoop_spec`). It finds the nodes on every way to
a node without such arcs. The entry has incoming arcs when some node is connected to it, and then all sets
of `dominator` stay as they are at the start (`domsRight_iff`).

The theorem is for every graph that calls build and every order of its nodes, with the entry
reaching all of them, and says that both iterations end. It rests on the sweeps of
`Foundation.Sweep`, over any equations that only go down, and on `OnAllWays`, which is a fact about
paths. The post-dominators are right in every graph (`postDominator_right`); only the dominators
depend on the entry.
-/

namespace OpenImpact.Libflow

open Foundation

variable {g g' : DfGraph}

/-- An arc. -/
def DfGraph.Arc (g : DfGraph) (a b : NodeId) : Prop := a ∈ g.source b

/-- What holds of a graph while it is built. -/
structure DfGraph.WF (g : DfGraph) : Prop where
  nodup : g.nodes.Nodup
  mem_destination : ∀ a b, b ∈ g.destination a ↔ g.Arc a b
  arc_mem : ∀ a b, g.Arc a b → a ∈ g.nodes ∧ b ∈ g.nodes
  defined_mem : ∀ id ∈ g.defined, GoodId id ∧ id ∈ g.nodes
  entry_mem : ∀ e, g.entry = some e → e ∈ g.nodes
  mem_eDef : ∀ r d, d ∈ g.eDef r ↔ r ∈ g.destReg d
  destReg_mem : ∀ d, ∀ r ∈ g.destReg d, r ∈ g.regDefined ∧ GoodRegId r
  srcReg_mem : ∀ d, ∀ r ∈ g.srcReg d, GoodRegId r

/-- One more element in one of the sets. -/
theorem mem_update_insert {α β : Type} [DecidableEq α] [DecidableEq β] {f : α → Finset β} {a x : α}
    {b y : β} : y ∈ Function.update f a (insert b (f a)) x ↔ y = b ∧ x = a ∨ y ∈ f x := by
  rcases eq_or_ne x a with rfl | hne
  · simp
  · simp [hne]

/-- The graph has no node yet. -/
theorem DfGraph.WF.define : defineDfGraph.WF := by
  constructor <;> simp [defineDfGraph, DfGraph.Arc]

/-- A node is added if it is not there. -/
theorem mem_findOrAddNode {id v : NodeId} :
    v ∈ (findOrAddNode id g).nodes ↔ v = id ∨ v ∈ g.nodes := by
  unfold findOrAddNode
  split_ifs with h
  · exact ⟨.inr, fun hv ↦ hv.elim (fun heq ↦ heq ▸ h) fun hv ↦ hv⟩
  · simp [or_comm]

/-- Adding a node keeps the graph well formed. -/
theorem DfGraph.WF.findOrAddNode (h : g.WF) (id : NodeId) : (findOrAddNode id g).WF := by
  unfold Libflow.findOrAddNode
  split_ifs with hid
  · exact h
  · exact {
      nodup := List.nodup_append.2 ⟨h.nodup, List.nodup_singleton id, fun a ha b hb ↦ by
        rintro rfl
        exact hid (List.mem_singleton.1 hb ▸ ha)⟩
      mem_destination := h.mem_destination
      arc_mem := fun a b hab ↦ (h.arc_mem a b hab).imp (List.mem_append_left _) (List.mem_append_left _)
      defined_mem := fun v hv ↦ (h.defined_mem v hv).imp_right (List.mem_append_left _)
      entry_mem := fun e he ↦ List.mem_append_left _ (h.entry_mem e he)
      mem_eDef := h.mem_eDef
      destReg_mem := h.destReg_mem
      srcReg_mem := h.srcReg_mem }

/-- So does an arc between nodes of the graph. -/
theorem DfGraph.WF.connectNodes {a b : NodeId} (h : g.WF) (ha : a ∈ g.nodes) (hb : b ∈ g.nodes) :
    (connectNodes a b g).WF := by
  unfold Libflow.connectNodes
  split_ifs with hab
  · exact h
  · have harc : ∀ x y, x ∈ Function.update g.source b (a :: g.source b) y ↔
        x = a ∧ y = b ∨ g.Arc x y := by
      intro x y
      rcases eq_or_ne y b with rfl | hne
      · simp [Arc]
      · simp [Arc, hne]
    refine { h with
      mem_destination := fun x y ↦ ?_
      arc_mem := fun x y hxy ↦ ?_ }
    · refine Iff.trans ?_ (harc x y).symm
      rcases eq_or_ne x a with rfl | hne
      · simp [h.mem_destination]
      · simp [h.mem_destination, hne]
    · rcases (harc x y).1 hxy with ⟨rfl, rfl⟩ | hxy
      · exact ⟨ha, hb⟩
      · exact h.arc_mem x y hxy

/-- So does every call that builds it. -/
theorem DfGraph.WF.exec {c : Call} (h : g.WF) (hrun : exec g c = .ok g') : g'.WF := by
  cases c with
  | addNode id =>
    rw [Libflow.exec, addDfNode] at hrun
    split_ifs at hrun with hgood hdef
    obtain rfl := Except.ok.inj hrun
    have hf := h.findOrAddNode id
    have hmem : id ∈ (Libflow.findOrAddNode id g).nodes := mem_findOrAddNode.2 (.inl rfl)
    refine { hf with
      defined_mem := fun v hv ↦ ?_
      entry_mem := fun e he ↦ ?_ }
    · rcases Finset.mem_insert.1 hv with rfl | hv
      · exact ⟨hgood, hmem⟩
      · exact hf.defined_mem v hv
    · cases hentry : (Libflow.findOrAddNode id g).entry with
      | none =>
        rw [hentry] at he
        exact Option.some.inj he ▸ hmem
      | some e' =>
        rw [hentry] at he
        exact hf.entry_mem e (hentry.trans he)
  | addSrcReg r =>
    rw [Libflow.exec, addDfNodeSrcReg] at hrun
    cases hnode : g.node with
    | none => simp [hnode] at hrun
    | some n =>
      simp only [hnode] at hrun
      split_ifs at hrun with hgood
      obtain rfl := Except.ok.inj hrun
      refine { h with
        destReg_mem := fun d r' hr' ↦ (h.destReg_mem d r' hr').imp_left (Finset.mem_insert_of_mem)
        srcReg_mem := fun d r' hr' ↦ ?_ }
      rcases mem_update_insert.1 hr' with ⟨rfl, -⟩ | hr'
      · exact hgood
      · exact h.srcReg_mem d r' hr'
  | addDestReg r =>
    rw [Libflow.exec, addDfNodeDestReg] at hrun
    cases hnode : g.node with
    | none => simp [hnode] at hrun
    | some n =>
      simp only [hnode] at hrun
      split_ifs at hrun with hgood
      obtain rfl := Except.ok.inj hrun
      refine { h with
        mem_eDef := fun r' d ↦ ?_
        destReg_mem := fun d r' hr' ↦ ?_ }
      · refine mem_update_insert.trans (Iff.trans ?_ mem_update_insert.symm)
        rw [h.mem_eDef, and_comm]
      · rcases mem_update_insert.1 hr' with ⟨rfl, -⟩ | hr'
        · exact ⟨Finset.mem_insert_self _ _, hgood⟩
        · exact (h.destReg_mem d r' hr').imp_left Finset.mem_insert_of_mem
  | connect a b =>
    obtain rfl := Except.ok.inj hrun
    refine ((h.findOrAddNode a).findOrAddNode b).connectNodes ?_ ?_
    · exact mem_findOrAddNode.2 (.inr (mem_findOrAddNode.2 (.inl rfl)))
    · exact mem_findOrAddNode.2 (.inl rfl)

/-- **A graph that has been built**, with all of its nodes added. -/
theorem build_spec {calls : List Call} (hrun : build calls = .ok g) :
    g.WF ∧ (∃ e, g.entry = some e) ∧ ∀ v ∈ g.nodes, GoodId v := by
  rw [build, Run.bind_eq_ok] at hrun
  obtain ⟨g₁, hcalls, hend⟩ := hrun
  have hwf : g₁.WF := Run.foldlM_keeps (fun c _ _ _ h hc ↦ h.exec hc) DfGraph.WF.define hcalls
  rw [Run.bind_eq_ok] at hend
  obtain ⟨_, hend, heq⟩ := hend
  obtain rfl := Except.ok.inj heq
  simp only [endDfGraph, ite_eq_iff, reduceCtorEq, and_false, false_or, not_exists, not_and,
    not_not] at hend
  obtain ⟨hentry, hdef, -⟩ := hend
  exact ⟨hwf, Option.ne_none_iff_exists'.1 hentry, fun v hv ↦ (hwf.defined_mem v (hdef v hv)).1⟩

/-! ### The iteration for dominators -/

section Dom

variable {adj : NodeId → List NodeId} {dom init : NodeId → Finset NodeId} {nodes : List NodeId}
  {v d : NodeId}

/-- A node is on every way along `adj` to a node where it ends. -/
def OnAllWays (adj : NodeId → List NodeId) (d v : NodeId) : Prop :=
  ∀ x l, adj x = [] → Walk (fun a b ↦ b ∈ adj a) v l x → d ∈ l

/-- The intersection over the arcs. -/
theorem mem_foldl_inter {arcs : List NodeId} {s : Finset NodeId} :
    d ∈ arcs.foldl (fun temp b ↦ temp ∩ dom b) s ↔ d ∈ s ∧ ∀ a ∈ arcs, d ∈ dom a := by
  induction arcs generalizing s with
  | nil => simp
  | cons a arcs ih => rw [List.foldl_cons, ih, Finset.mem_inter, List.forall_mem_cons, and_assoc]

/-- A node is dominated by itself and by what dominates all nodes before it, if there are such. -/
theorem mem_domNode : d ∈ domNode adj dom v ↔ d = v ∨ adj v ≠ [] ∧ ∀ a ∈ adj v, d ∈ dom a := by
  rw [domNode, Finset.mem_insert]
  refine or_congr_right ?_
  cases adj v with
  | nil => simp
  | cons a arcs => simp [mem_foldl_inter]

/-- The set of a node is made of those of the nodes before it, which are compared as sets. -/
theorem domNode_keyed (adj : NodeId → List NodeId) :
    Sweep.Keyed (fun a b ↦ decide (a ≠ b)) (domNode adj) (id : Finset NodeId → Finset NodeId) where
  changed a b := by simp
  upd s t v h := by rw [show s = t from funext h]

/-- Smaller sets give smaller ones. -/
theorem domNode_mono {s t : NodeId → Finset NodeId} (h : ∀ w, t w ⊆ s w) (v : NodeId) :
    domNode adj t v ⊆ domNode adj s v := fun d hd ↦ by
  rw [mem_domNode] at hd ⊢
  exact hd.imp_right fun ⟨hne, hall⟩ ↦ ⟨hne, fun a ha ↦ h a (hall a ha)⟩

/-- What is on all ways from a node is the node, or on all ways from all nodes after it. -/
theorem OnAllWays.eq_or (h : OnAllWays adj d v) : d = v ∨ adj v ≠ [] ∧ ∀ a ∈ adj v, OnAllWays adj d a := by
  refine or_iff_not_imp_left.2 fun hne ↦ ⟨fun hnil ↦ ?_, fun a ha x l hx hwalk ↦ ?_⟩
  · exact hne (List.mem_singleton.1 (h v [v] hnil (.nil v)))
  · exact (List.mem_cons.1 (h x _ hx (.cons ha hwalk))).resolve_left hne

/-- The sets while they are iterated. -/
structure Descends (adj : NodeId → List NodeId) (nodes : List NodeId)
    (s : NodeId → Finset NodeId) : Prop where
  ascends : Sweep.Ascends (fun a b ↦ b ⊆ a) id (domNode adj) nodes s
  subset : ∀ v ∈ nodes, s v ⊆ nodes.toFinset
  mem : ∀ v ∈ nodes, ∀ d ∈ nodes, OnAllWays adj d v → d ∈ s v

/-- An update keeps the sets above their next values. -/
theorem Descends.update (hadj : ∀ v ∈ nodes, ∀ a ∈ adj v, a ∈ nodes) {s : NodeId → Finset NodeId}
    (h : Descends adj nodes s) (hv : v ∈ nodes) :
    Descends adj nodes (Function.update s v (domNode adj s v)) := by
  have hmono : ∀ s t : NodeId → Finset NodeId, (∀ w, t w ⊆ s w) → ∀ w ∈ nodes,
      domNode adj t w ⊆ domNode adj s w := fun s t hst w _ ↦ domNode_mono hst w
  have hasc : Sweep.Ascends (fun a b ↦ b ⊆ a) id (domNode adj) nodes
      (Function.update s v (domNode adj s v)) :=
    h.ascends.update (r := fun a b : Finset NodeId ↦ b ⊆ a) (fun _ ↦ Finset.Subset.refl _)
      (fun hab hbc ↦ hbc.trans hab) hmono hv
  refine ⟨hasc, fun w hw ↦ ?_, fun w hw d hdn hd ↦ ?_⟩
  · rcases eq_or_ne w v with rfl | hne
    · rw [Function.update_self]
      exact (h.ascends w hw).trans (h.subset w hw)
    · rw [Function.update_of_ne hne]
      exact h.subset w hw
  · rcases eq_or_ne w v with rfl | hne
    · rw [Function.update_self, mem_domNode]
      exact hd.eq_or.imp_right fun ⟨hne, hall⟩ ↦ ⟨hne, fun a ha ↦
        h.mem a (hadj w hw a ha) d hdn (hall a ha)⟩
    · rw [Function.update_of_ne hne]
      exact h.mem w hw d hdn hd

/-- In a solution, what is in the set of a node is on all ways. -/
theorem onAllWays_of_mem (hadj : ∀ v ∈ nodes, ∀ a ∈ adj v, a ∈ nodes)
    (hsol : ∀ v ∈ nodes, dom v = domNode adj dom v) (hv : v ∈ nodes) (hd : d ∈ dom v) :
    OnAllWays adj d v := by
  intro x l hx hwalk
  induction hwalk with
  | nil a =>
    rw [hsol a hv, mem_domNode] at hd
    exact List.mem_singleton.2 (hd.resolve_right fun h ↦ h.1 hx)
  | @cons a b c l hab hwalk ih =>
    rw [hsol a hv, mem_domNode] at hd
    rcases hd with rfl | ⟨-, hall⟩
    · exact List.mem_cons_self
    · exact List.mem_cons_of_mem _ (ih (hadj a hv b hab) (hall b hab) hx)

/-- **The iteration** returns, with the nodes on all ways. -/
theorem domLoop_spec (hgood : ∀ v ∈ g.nodes, GoodId v)
    (hadj : ∀ v ∈ g.nodes, ∀ a ∈ adj v, a ∈ g.nodes) (hinit : Descends adj g.nodes init) :
    ∃ dom, domLoop g adj init = .ok dom ∧
      ∀ v ∈ g.nodes, ∀ d, d ∈ dom v ↔ d ∈ g.nodes ∧ OnAllWays adj d v := by
  have hk := domNode_keyed adj
  have hupd : ∀ s, ∀ v ∈ g.nodes, Descends adj g.nodes s →
      Descends adj g.nodes (Function.update s v (domNode adj s v)) := fun s v hv h ↦ h.update hadj hv
  have hfuel : Sweep.cardSum g.nodes init < g.nodes.length * g.nodes.length + 1 := by
    refine Nat.lt_succ_of_le ((Sweep.cardSum_le hinit.subset).trans ?_)
    exact Nat.mul_le_mul_left _ (List.toFinset_card_le _)
  obtain ⟨dom, hrun⟩ := hk.exists_sweeps hupd (hk.lowers_cardSum fun s h ↦ h.ascends) hinit hfuel
  obtain ⟨hdom, hsol⟩ := hk.sweeps_solves hupd hinit hrun
  refine ⟨dom, ?_, fun v hv d ↦ ⟨fun hd ↦ ?_, fun hd ↦ hdom.mem v hv d hd.1 hd.2⟩⟩
  · rw [domLoop, hrun]
    exact if_neg fun ⟨v, hv, hbad⟩ ↦ hbad (hgood v hv)
  · exact ⟨List.mem_toFinset.1 (hdom.subset v hv hd), onAllWays_of_mem hadj hsol hv hd⟩

/-- A walk stays inside. -/
theorem walk_subset {l : List NodeId} {x : NodeId} (hadj : ∀ v ∈ nodes, ∀ a ∈ adj v, a ∈ nodes)
    (hwalk : Walk (fun a b ↦ b ∈ adj a) v l x) (hv : v ∈ nodes) : ∀ d ∈ l, d ∈ nodes := by
  induction hwalk with
  | nil a => exact fun d hd ↦ List.mem_singleton.1 hd ▸ hv
  | @cons a b c l hab hwalk ih =>
    exact List.forall_mem_cons.2 ⟨hv, ih (hadj a hv b hab)⟩

/-- The sets at the start: those of some nodes without arcs may be known. -/
theorem descends_init (hadj : ∀ v ∈ nodes, ∀ a ∈ adj v, a ∈ nodes)
    (hinit : ∀ v ∈ nodes, init v = nodes.toFinset ∨ adj v = [] ∧ init v = {v}) :
    Descends adj nodes init := by
  have hsub : ∀ v ∈ nodes, init v ⊆ nodes.toFinset := by
    intro v hv
    rcases hinit v hv with heq | ⟨-, heq⟩
    · rw [heq]
    · rw [heq, Finset.singleton_subset_iff]
      exact List.mem_toFinset.2 hv
  refine ⟨fun v hv d hd ↦ ?_, hsub, fun v hv d hdn hd ↦ ?_⟩
  · rw [id, mem_domNode] at hd
    rcases hinit v hv with heq | ⟨hnil, heq⟩
    · rw [id, heq]
      rcases hd with rfl | ⟨hne, hall⟩
      · exact List.mem_toFinset.2 hv
      · obtain ⟨a, ha⟩ := List.exists_mem_of_ne_nil _ hne
        exact hsub a (hadj v hv a ha) (hall a ha)
    · rw [id, heq, Finset.mem_singleton]
      exact hd.resolve_right fun h ↦ h.1 hnil
  · rcases hinit v hv with heq | ⟨hnil, heq⟩
    · rw [heq]
      exact List.mem_toFinset.2 hdn
    · rw [heq, Finset.mem_singleton]
      exact List.mem_singleton.1 (hd v [v] hnil (.nil v))

end Dom

/-! ### The dominators of a graph -/

/-- What `dominator` and `post_dominator` are to compute, for a graph with this entry. -/
structure DomsRight (g : DfGraph) (e : NodeId) : Prop where
  dom : ∃ dom, dominator g = .ok dom ∧ ∀ v ∈ g.nodes, ∀ d, d ∈ dom v ↔ Dominates g.Arc e d v
  postDom : (∀ v ∈ g.nodes, ∃ x, g.destination x = [] ∧ Relation.ReflTransGen g.Arc v x) →
    ∃ dom, postDominator g = .ok dom ∧
      ∀ v ∈ g.nodes, ∀ d, d ∈ dom v ↔ OnAllWays g.destination d v

section DomsRight

variable {e : NodeId} (hwf : g.WF) (hgood : ∀ v ∈ g.nodes, GoodId v)

include hwf

/-- The sources of arcs are nodes. -/
theorem DfGraph.WF.source_mem : ∀ v ∈ g.nodes, ∀ a ∈ g.source v, a ∈ g.nodes :=
  fun v _ a ha ↦ (hwf.arc_mem a v ha).1

/-- And the destinations. -/
theorem DfGraph.WF.destination_mem : ∀ v ∈ g.nodes, ∀ a ∈ g.destination v, a ∈ g.nodes :=
  fun v _ a ha ↦ (hwf.arc_mem v a ((hwf.mem_destination v a).1 ha)).2

include hgood

/-- The dominators: what is on all ways back to nodes without arcs into them. -/
theorem dominator_spec : ∃ dom, dominator g = .ok dom ∧
    ∀ v ∈ g.nodes, ∀ d, d ∈ dom v ↔ d ∈ g.nodes ∧ OnAllWays g.source d v :=
  domLoop_spec hgood hwf.source_mem (descends_init hwf.source_mem fun _ _ ↦ .inl rfl)

/-- The post dominators, by the arcs the other way. -/
theorem postDominator_spec : ∃ dom, postDominator g = .ok dom ∧
    ∀ v ∈ g.nodes, ∀ d, d ∈ dom v ↔ d ∈ g.nodes ∧ OnAllWays g.destination d v := by
  refine domLoop_spec hgood hwf.destination_mem (descends_init hwf.destination_mem fun v _ ↦ ?_)
  rcases eq_or_ne (g.destination v) [] with hnil | hne
  · exact .inr ⟨hnil, if_pos hnil⟩
  · exact .inl (if_neg hne)

/-- The post-dominators are right in every graph. -/
theorem postDominator_right
    (hexit : ∀ v ∈ g.nodes, ∃ x, g.destination x = [] ∧ Relation.ReflTransGen g.Arc v x) :
    ∃ dom, postDominator g = .ok dom ∧
      ∀ v ∈ g.nodes, ∀ d, d ∈ dom v ↔ OnAllWays g.destination d v := by
  obtain ⟨dom, hrun, hmem⟩ := postDominator_spec hwf hgood
  refine ⟨dom, hrun, fun v hv d ↦ (hmem v hv d).trans ⟨And.right, fun hd ↦ ⟨?_, hd⟩⟩⟩
  obtain ⟨x, hx, hchain⟩ := hexit v hv
  have hout := Relation.ReflTransGen.mono (fun a b ↦ (hwf.mem_destination a b).2) _ _ hchain
  obtain ⟨l, hwalk⟩ := exists_walk hout
  exact walk_subset hwf.destination_mem hwalk hv d (hd x l hx hwalk)

variable (hreach : ∀ v ∈ g.nodes, Relation.ReflTransGen g.Arc e v) (he : e ∈ g.nodes)

include hreach

omit hwf hgood in
/-- Only the entry can have no incoming arcs. -/
theorem eq_entry_of_source_nil {x : NodeId} (hx : x ∈ g.nodes) (hnil : g.source x = []) : x = e := by
  rcases (hreach x hx).cases_tail with rfl | ⟨a, -, harc⟩
  · rfl
  · rw [DfGraph.Arc, hnil] at harc
    exact absurd harc List.not_mem_nil

include he

omit hgood in
/-- From an entry without incoming arcs, the dominators of a node are on all ways back from it. -/
theorem dominates_iff_onAllWays (hnil : g.source e = []) {v d : NodeId} (hv : v ∈ g.nodes) :
    Dominates g.Arc e d v ↔ d ∈ g.nodes ∧ OnAllWays g.source d v := by
  constructor
  · intro hdom
    refine ⟨?_, fun x l hx hwalk ↦ ?_⟩
    · obtain ⟨l, hwalk⟩ := exists_walk (hreach v hv)
      exact walk_subset hwf.source_mem hwalk.flip hv d (List.mem_reverse.2 (hdom l hwalk))
    · have hxn : x ∈ g.nodes := walk_subset hwf.source_mem hwalk hv x hwalk.last_mem
      obtain rfl := eq_entry_of_source_nil hreach hxn hx
      exact List.mem_reverse.1 (hdom _ hwalk.flip)
  · rintro ⟨-, hall⟩ l hwalk
    exact List.mem_reverse.1 (hall e _ hnil hwalk.flip)

/-- The dominators are right when the entry has no incoming arcs, or is the only node. -/
theorem dominator_right (h : g.source e = [] ∨ ∀ v ∈ g.nodes, v = e) :
    ∃ dom, dominator g = .ok dom ∧ ∀ v ∈ g.nodes, ∀ d, d ∈ dom v ↔ Dominates g.Arc e d v := by
  obtain ⟨dom, hrun, hmem⟩ := dominator_spec hwf hgood
  refine ⟨dom, hrun, fun v hv d ↦ (hmem v hv d).trans ?_⟩
  rcases h with hnil | hone
  · exact (dominates_iff_onAllWays hwf hreach he hnil hv).symm
  · obtain rfl := hone v hv
    constructor
    · rintro ⟨hd, -⟩
      obtain rfl := hone d hd
      exact Dominates.refl _ _ _
    · intro hdom
      obtain rfl := List.mem_singleton.1 (hdom [v] (.nil v))
      exact ⟨hv, fun x l _ hwalk ↦ hwalk.head_mem⟩

/-- With an arc into the entry no node is without incoming arcs, and the sets stay full. -/
theorem not_dominator_right (hne : g.source e ≠ []) (hother : ∃ v ∈ g.nodes, v ≠ e) :
    ¬∃ dom, dominator g = .ok dom ∧ ∀ v ∈ g.nodes, ∀ d, d ∈ dom v ↔ Dominates g.Arc e d v := by
  rintro ⟨dom, hrun, hright⟩
  obtain ⟨dom', hrun', hmem⟩ := dominator_spec hwf hgood
  obtain rfl := Except.ok.inj (hrun'.symm.trans hrun)
  obtain ⟨v, hv, hve⟩ := hother
  have hfull : v ∈ dom' e := by
    refine (hmem e he v).2 ⟨hv, fun x l hx hwalk ↦ ?_⟩
    have hxn : x ∈ g.nodes := walk_subset hwf.source_mem hwalk he x hwalk.last_mem
    exact absurd (eq_entry_of_source_nil hreach hxn hx ▸ hx) hne
  exact hve (List.mem_singleton.1 ((hright e he v).1 hfull [e] (.nil e)))

end DomsRight

/-- The list of the nodes in another order. -/
theorem DfGraph.WF.reorder (hwf : g.WF) {order : List NodeId} (horder : order.Perm g.nodes) :
    DfGraph.WF { g with nodes := order } where
  nodup := horder.nodup_iff.2 hwf.nodup
  mem_destination := hwf.mem_destination
  arc_mem a b hab := (hwf.arc_mem a b hab).imp horder.mem_iff.2 horder.mem_iff.2
  defined_mem id hid := (hwf.defined_mem id hid).imp_right horder.mem_iff.2
  entry_mem e he := horder.mem_iff.2 (hwf.entry_mem e he)
  mem_eDef := hwf.mem_eDef
  destReg_mem := hwf.destReg_mem
  srcReg_mem := hwf.srcReg_mem

/-- **The dominators of a graph whose nodes are reachable from its entry**, whatever the order of the
nodes, are right exactly when the entry has no incoming arcs or is the only node. -/
theorem domsRight_iff {calls : List Call} {e : NodeId} {order : List NodeId}
    (hbuild : build calls = .ok g) (hentry : g.entry = some e)
    (hreach : ∀ v ∈ g.nodes, Relation.ReflTransGen g.Arc e v) (horder : order.Perm g.nodes) :
    DomsRight { g with nodes := order } e ↔ g.source e = [] ∨ ∀ v ∈ g.nodes, v = e := by
  obtain ⟨hwf, -, hgood⟩ := build_spec hbuild
  have hwf' := hwf.reorder horder
  have hgood' : ∀ v ∈ order, GoodId v := fun v hv ↦ hgood v (horder.mem_iff.1 hv)
  have hreach' : ∀ v ∈ order, Relation.ReflTransGen g.Arc e v :=
    fun v hv ↦ hreach v (horder.mem_iff.1 hv)
  have he : e ∈ order := horder.mem_iff.2 (hwf.entry_mem e hentry)
  constructor
  · intro hright
    by_contra hnot
    push Not at hnot
    obtain ⟨hne, v, hv, hve⟩ := hnot
    exact not_dominator_right hwf' hgood' hreach' he hne ⟨v, horder.mem_iff.2 hv, hve⟩ hright.dom
  · intro hcond
    have hcond' : g.source e = [] ∨ ∀ v ∈ order, v = e :=
      hcond.imp_right fun hall v hv ↦ hall v (horder.mem_iff.1 hv)
    exact ⟨dominator_right hwf' hgood' hreach' he hcond', postDominator_right hwf' hgood'⟩

/-- Two nodes in the other order, with an arc out of the entry. -/
theorem domsRight_iff_pair : ∃ g, build [.addNode 0, .addNode 1, .connect 0 1] = .ok g ∧
    DomsRight { g with nodes := [1, 0] } 0 := by
  obtain ⟨g, hbuild⟩ : ∃ g, build [.addNode 0, .addNode 1, .connect 0 1] = .ok g := ⟨_, rfl⟩
  have hparts : (Except.ok (g.nodes, g.entry, g.source 0, g.source 1) : Run _) =
      .ok ([0, 1], some 0, [], [0]) := by
    refine (congrArg (Except.map fun g ↦
      (g.nodes, g.entry, g.source 0, g.source 1)) hbuild).symm.trans ?_
    decide +kernel
  simp only [Except.ok.injEq, Prod.mk.injEq] at hparts
  obtain ⟨hnodes, hentry, hsource₀, hsource₁⟩ := hparts
  refine ⟨g, hbuild, (domsRight_iff hbuild hentry ?_ (hnodes ▸ by decide)).2 (.inl hsource₀)⟩
  have harc : g.Arc 0 1 := by simp [DfGraph.Arc, hsource₁]
  rw [hnodes]
  exact List.forall_mem_cons.2 ⟨.refl, List.forall_mem_cons.2 ⟨.single harc, by simp⟩⟩

/-- In a loop of two nodes, node 1 is left among the dominators of the entry. -/
theorem not_domsRight_loop :
    ∃ g, build [.addNode 0, .addNode 1, .connect 0 1, .connect 1 0] = .ok g ∧ g.entry = some 0 ∧
      (∀ v ∈ g.nodes, Relation.ReflTransGen g.Arc 0 v) ∧ ¬DomsRight g 0 := by
  obtain ⟨g, hbuild⟩ : ∃ g, build [.addNode 0, .addNode 1, .connect 0 1, .connect 1 0] = .ok g :=
    ⟨_, rfl⟩
  have hparts : (Except.ok (g.nodes, g.entry, g.source 1, (dominator g).map fun dom ↦ dom 0) : Run _) =
      .ok ([0, 1], some 0, [0], .ok {0, 1}) := by
    refine (congrArg (Except.map fun g ↦
      (g.nodes, g.entry, g.source 1, (dominator g).map fun dom ↦ dom 0)) hbuild).symm.trans ?_
    decide +kernel
  simp only [Except.ok.injEq, Prod.mk.injEq] at hparts
  obtain ⟨hnodes, hentry, hsource, hdom⟩ := hparts
  refine ⟨g, hbuild, hentry, ?_, fun hright ↦ ?_⟩
  · have harc : g.Arc 0 1 := by simp [DfGraph.Arc, hsource]
    rw [hnodes]
    exact List.forall_mem_cons.2 ⟨.refl, List.forall_mem_cons.2 ⟨.single harc, by simp⟩⟩
  · obtain ⟨dom, hrun, hmem⟩ := hright.dom
    have hone : 1 ∈ dom 0 := by
      rw [hrun] at hdom
      simp [Except.ok.inj hdom]
    have hdominates := (hmem 0 (by simp [hnodes]) 1).1 hone
    exact absurd (hdominates [0] (.nil 0)) (by decide)

end OpenImpact.Libflow
