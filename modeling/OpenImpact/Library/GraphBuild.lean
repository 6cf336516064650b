import OpenImpact.Library.Graph

/-!
# Building graphs

Creating nodes and connecting them keeps a shape well formed. `createCbGraph` is the client's part:
the control-flow graph `L_create_cb_graph` makes of the blocks of a function.
-/

namespace OpenImpact.Graph

/-- The shape of the graph of `Graph_create_graph`. -/
def Shape.empty : Shape where
  root := none
  nodes := []
  arcs := []
  pred _ := []
  succ _ := []
  arcPred _ := 0
  arcSucc _ := 0

/-- A new node: `Graph_create_graph_node_given_id`. -/
def Shape.createNode (id : Id) (S : Shape) : Shape :=
  { S with
    nodes := S.nodes ++ [id]
    pred := Function.update S.pred id []
    succ := Function.update S.succ id [] }

/-- A new arc with its ends: `Graph_connect_nodes`. -/
def Shape.connectNodes (id src dest : Id) (S : Shape) : Shape :=
  { S with
    arcs := S.arcs ++ [id]
    arcPred := Function.update S.arcPred id src
    arcSucc := Function.update S.arcSucc id dest
    succ := Function.update S.succ src (S.succ src ++ [id])
    pred := Function.update S.pred dest (S.pred dest ++ [id]) }

theorem Shape.WF.empty : Shape.empty.WF := by
  constructor <;> simp [Shape.empty]

theorem Shape.WF.createNode {S : Shape} (h : S.WF) {id : Id} (hid : id ∉ S.nodes) :
    (S.createNode id).WF where
  nodup_nodes := by
    refine List.nodup_append.2 ⟨h.nodup_nodes, List.nodup_singleton _, fun v hv w hw ↦ ?_⟩
    rw [List.mem_singleton.1 hw]
    rintro rfl
    exact hid hv
  nodup_arcs := h.nodup_arcs
  nodup_succ v := by
    by_cases hv : v = id
    · simp [Shape.createNode, hv]
    · simpa [Shape.createNode, hv] using h.nodup_succ v
  nodup_pred v := by
    by_cases hv : v = id
    · simp [Shape.createNode, hv]
    · simpa [Shape.createNode, hv] using h.nodup_pred v
  mem_succ v a := by
    by_cases hv : v = id
    · simp only [Shape.createNode, hv, Function.update_self, List.not_mem_nil, false_iff, not_and]
      exact fun ha heq ↦ hid (heq ▸ h.arcPred_mem a ha)
    · simpa [Shape.createNode, hv] using h.mem_succ v a
  mem_pred v a := by
    by_cases hv : v = id
    · simp only [Shape.createNode, hv, Function.update_self, List.not_mem_nil, false_iff, not_and]
      exact fun ha heq ↦ hid (heq ▸ h.arcSucc_mem a ha)
    · simpa [Shape.createNode, hv] using h.mem_pred v a
  arcPred_mem a ha := List.mem_append_left _ (h.arcPred_mem a ha)
  arcSucc_mem a ha := List.mem_append_left _ (h.arcSucc_mem a ha)
  root_mem r hr := List.mem_append_left _ (h.root_mem r hr)

/-- A new node is the root if there was none. -/
theorem Shape.WF.createNode_root {S : Shape} (h : S.WF) {id : Id} (hid : id ∉ S.nodes) :
    ({ S.createNode id with root := some (S.root.getD id) } : Shape).WF := by
  refine { h.createNode hid with root_mem := fun r hr ↦ ?_ }
  cases hroot : S.root with
  | none =>
    obtain rfl : id = r := by simpa [hroot] using hr
    exact List.mem_append_right _ (List.mem_singleton_self id)
  | some r' =>
    obtain rfl : r' = r := by simpa [hroot] using hr
    exact List.mem_append_left _ (h.root_mem r' hroot)

theorem Shape.WF.connectNodes {S : Shape} (h : S.WF) {id src dest : Id} (hid : id ∉ S.arcs)
    (hsrc : src ∈ S.nodes) (hdest : dest ∈ S.nodes) : (S.connectNodes id src dest).WF := by
  have hmem : ∀ (l : Id → List Id) (f : Id → Id) (w : Id), (∀ v, (l v).Nodup) →
      (∀ v a, a ∈ l v ↔ a ∈ S.arcs ∧ f a = v) →
      (∀ v, (Function.update l w (l w ++ [id]) v).Nodup) ∧
      ∀ v a, a ∈ Function.update l w (l w ++ [id]) v ↔
        a ∈ S.arcs ++ [id] ∧ Function.update f id w a = v := by
    intro l f w hnodup hl
    have hnot : ∀ v, id ∉ l v := fun v hv ↦ hid ((hl v id).1 hv).1
    refine ⟨fun v ↦ ?_, fun v a ↦ ?_⟩
    · by_cases hv : v = w
      · subst hv
        rw [Function.update_self]
        refine List.nodup_append.2 ⟨hnodup v, List.nodup_singleton _, fun x hx y hy ↦ ?_⟩
        rw [List.mem_singleton.1 hy]
        rintro rfl
        exact hnot v hx
      · rw [Function.update_of_ne hv]
        exact hnodup v
    · by_cases ha : a = id
      · subst ha
        by_cases hv : v = w
        · simp [hv]
        · simp [hv, hnot, Ne.symm hv]
      · by_cases hv : v = w
        · simp [hv, ha, hl]
        · simp [hv, ha, hl]
  obtain ⟨hnodup_succ, hsucc⟩ := hmem S.succ S.arcPred src h.nodup_succ h.mem_succ
  obtain ⟨hnodup_pred, hpred⟩ := hmem S.pred S.arcSucc dest h.nodup_pred h.mem_pred
  have hend : ∀ (f : Id → Id) (w : Id), w ∈ S.nodes → (∀ a ∈ S.arcs, f a ∈ S.nodes) →
      ∀ a ∈ S.arcs ++ [id], Function.update f id w a ∈ S.nodes := by
    intro f w hw hf a ha
    by_cases heq : a = id
    · simpa [heq] using hw
    · rw [Function.update_of_ne heq]
      exact hf a ((List.mem_append.1 ha).resolve_right (by simpa using heq))
  refine ⟨h.nodup_nodes, ?_, hnodup_succ, hnodup_pred, hsucc, hpred,
    hend S.arcPred src hsrc h.arcPred_mem, hend S.arcSucc dest hdest h.arcSucc_mem, h.root_mem⟩
  refine List.nodup_append.2 ⟨h.nodup_arcs, List.nodup_singleton _, fun x hx y hy ↦ ?_⟩
  rw [List.mem_singleton.1 hy]
  rintro rfl
  exact hid hx

/-! ### The graph of the control blocks -/

/-- The nodes `L_create_cb_graph` creates: one per block, the first one being the root. -/
def createCbNodes (cbs : List (Id × List Id)) : Shape :=
  let S := cbs.foldl (fun (S : Shape) cb ↦ S.createNode cb.1) Shape.empty
  { S with root := cbs.head?.map Prod.fst }

/-- The arcs out of one block, numbered on from the last arc. -/
def connectFlows (src : Id) (dests : List Id) (p : Id × Shape) : Id × Shape :=
  dests.foldl (fun p dest ↦ (p.1 + 1, p.2.connectNodes (p.1 + 1) src dest)) p

/-- `L_create_cb_graph`. A block is given by its id and the destinations of its flows. -/
def createCbGraph (cbs : List (Id × List Id)) : Shape :=
  (cbs.foldl (fun p cb ↦ connectFlows cb.1 cb.2 p) (0, createCbNodes cbs)).2

theorem createCbNodes_wf {cbs : List (Id × List Id)} (hnodup : (cbs.map Prod.fst).Nodup) :
    (createCbNodes cbs).WF ∧ (createCbNodes cbs).nodes = cbs.map Prod.fst ∧
      (createCbNodes cbs).arcs = [] := by
  have hfold : ∀ (l : List (Id × List Id)) (S : Shape), S.WF → S.root = none →
      (S.nodes ++ l.map Prod.fst).Nodup →
      (l.foldl (fun S cb ↦ S.createNode cb.1) S).WF ∧
      (l.foldl (fun S cb ↦ S.createNode cb.1) S).nodes = S.nodes ++ l.map Prod.fst ∧
      (l.foldl (fun S cb ↦ S.createNode cb.1) S).arcs = S.arcs := by
    intro l
    induction l with
    | nil => exact fun S hS _ _ ↦ ⟨hS, by simp, rfl⟩
    | cons cb l ih =>
      intro S hS hroot hnd
      have hassoc : S.nodes ++ (cb :: l).map Prod.fst = S.nodes ++ [cb.1] ++ l.map Prod.fst := by
        simp
      rw [hassoc] at hnd
      have hid : cb.1 ∉ S.nodes := fun hmem ↦
        (List.nodup_append.1 (List.nodup_append.1 hnd).1).2.2 _ hmem _ List.mem_cons_self rfl
      obtain ⟨hwf, hnodes, harcs⟩ := ih (S.createNode cb.1) (hS.createNode hid) hroot hnd
      exact ⟨hwf, hnodes.trans hassoc.symm, harcs⟩
  obtain ⟨hwf, hnodes, harcs⟩ := hfold cbs .empty .empty rfl (by simpa [Shape.empty] using hnodup)
  have hnodes' : (createCbNodes cbs).nodes = cbs.map Prod.fst := hnodes
  refine ⟨{ hwf with root_mem := fun r hr ↦ ?_ }, hnodes', harcs⟩
  obtain ⟨cb, hcb, rfl⟩ := Option.map_eq_some_iff.1 hr
  rw [hnodes']
  exact List.mem_map_of_mem (List.mem_of_head? hcb)

/-- **The graph of the blocks of a function is well formed.** -/
theorem createCbGraph_wf {cbs : List (Id × List Id)} (hnodup : (cbs.map Prod.fst).Nodup)
    (hdest : ∀ cb ∈ cbs, ∀ dest ∈ cb.2, dest ∈ cbs.map Prod.fst) : (createCbGraph cbs).WF := by
  -- the arc ids in use are those up to the last one given out
  let Inv : Id × Shape → Prop := fun p ↦
    p.2.WF ∧ p.2.nodes = cbs.map Prod.fst ∧ ∀ a ∈ p.2.arcs, a ≤ p.1
  have hflows : ∀ (src : Id) (dests : List Id) (p : Id × Shape), src ∈ cbs.map Prod.fst →
      (∀ dest ∈ dests, dest ∈ cbs.map Prod.fst) → Inv p → Inv (connectFlows src dests p) := by
    intro src dests
    induction dests with
    | nil => exact fun p _ _ hp ↦ hp
    | cons dest dests ih =>
      rintro ⟨id, S⟩ hsrc hd ⟨hwf, hnodes, hle⟩
      refine ih _ hsrc (fun d hd' ↦ hd d (List.mem_cons_of_mem _ hd')) ⟨?_, hnodes, fun a ha ↦ ?_⟩
      · refine hwf.connectNodes (fun hid ↦ ?_) (hnodes ▸ hsrc) (hnodes ▸ hd dest List.mem_cons_self)
        exact absurd (hle _ hid) (Nat.not_succ_le_self id)
      · rcases List.mem_append.1 ha with ha | ha
        · exact (hle a ha).trans (Nat.le_succ id)
        · exact (List.mem_singleton.1 ha).le
  have hcbs : ∀ (l : List (Id × List Id)) (p : Id × Shape), (∀ cb ∈ l, cb ∈ cbs) → Inv p →
      Inv (l.foldl (fun p cb ↦ connectFlows cb.1 cb.2 p) p) := by
    intro l
    induction l with
    | nil => exact fun p _ hp ↦ hp
    | cons cb l ih =>
      intro p hl hp
      have hcb := hl cb List.mem_cons_self
      exact ih _ (fun c hc ↦ hl c (List.mem_cons_of_mem _ hc))
        (hflows cb.1 cb.2 p (List.mem_map_of_mem hcb) (hdest cb hcb) hp)
  obtain ⟨hwf, hnodes, harcs⟩ := createCbNodes_wf hnodup
  exact (hcbs cbs (0, createCbNodes cbs) (fun _ h ↦ h)
    ⟨hwf, hnodes, fun a ha ↦ by simp [harcs] at ha⟩).1

end OpenImpact.Graph
