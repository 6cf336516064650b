import OpenImpact.Foundation.DfsTree
import OpenImpact.Library.GraphDom

/-!
# The traversals of a graph

`Graph_dfs_topo_visit` and `Graph_preorder_dfs_visit` are depth-first traversals in the sense of
`Foundation.Dfs`. The first leaves the nodes it reaches in `topo_list`, last left first
(`topologicalSort_spec`); the second appends them to `dfs_list` as it enters them, and flags the arcs
to nodes on the recursion stack (`preorderDfsVisit_spec`).
-/

namespace OpenImpact.Graph

open Foundation Foundation.Dfs

/-! ### Topological sort -/

/-- `Graph_dfs_topo_visit` as a traversal program. -/
def topoVisitor (S : Shape) : Visitor Id Id Marks where
  marked M v := M.tflags v ≠ 0
  enter _ arc M := setTflags (S.arcSucc arc) 1 M
  pass _ _ M := M
  leave v M := { M with topoList := v :: M.topoList }

/-- The marks that the traversal tests are those it sets. -/
theorem topoVisitor_marks (S : Shape) : (topoVisitor S).Marks S.arcSucc where
  enter c e M v := by
    by_cases h : v = S.arcSucc e <;> simp [topoVisitor, setTflags, h]
  pass _ _ _ _ := Iff.rfl
  leave _ _ _ _ := Iff.rfl

/-- The recursive function is the traversal program with its last step. -/
theorem dfsTopoVisit_eq (S : Shape) (fuel : ℕ) (node : Id) (M : Marks) :
    dfsTopoVisit S fuel node M = (topoVisitor S).leave node <$>
      (topoVisitor S).visit S.succ S.arcSucc (.error .outOfFuel) fuel node (setTflags node 1 M) := by
  induction fuel generalizing node M with
  | zero => rfl
  | succ fuel ih =>
    have hstep : (fun M arc ↦ if M.tflags (S.arcSucc arc) = 0
        then dfsTopoVisit S fuel (S.arcSucc arc) M else .ok M) =
        (topoVisitor S).arcStep S.arcSucc
          ((topoVisitor S).visit S.succ S.arcSucc (.error .outOfFuel) fuel) node := by
      funext M arc
      rw [Visitor.arcStep, ih]
      by_cases h : M.tflags (S.arcSucc arc) = 0
      · simp only [topoVisitor, h, if_true, ne_eq, not_true_eq_false, decide_false,
          Bool.false_eq_true, if_false]
        rfl
      · simp [topoVisitor, h]
    rw [dfsTopoVisit, Visitor.visit, hstep]
    rfl

/-- What the events do to the marks: the nodes left go to the front of `topo_list`. -/
theorem topoVisitor_foldl (S : Shape) (evs : List (Event Id Id)) (M : Marks) :
    ∃ T, evs.foldl (topoVisitor S).handle M =
      { M with tflags := T, topoList := (left evs).reverse ++ M.topoList } ∧
      ∀ v, v ∉ entered S.arcSucc evs → T v = M.tflags v := by
  induction evs generalizing M with
  | nil => exact ⟨M.tflags, rfl, fun _ _ ↦ rfl⟩
  | cons ev evs ih =>
    obtain ⟨T, hT, hframe⟩ := ih ((topoVisitor S).handle M ev)
    refine ⟨T, ?_, fun v hv ↦ ?_⟩
    · rw [List.foldl_cons, hT]
      cases ev <;> simp [Visitor.handle, topoVisitor, setTflags]
    · cases ev with
      | enter c e =>
        rw [entered_enter, List.mem_cons, not_or] at hv
        rw [hframe v hv.2]
        exact Function.update_of_ne hv.1 _ _
      | back c e => exact hframe v hv
      | cross c e => exact hframe v hv
      | leave w => exact hframe v hv

/-- All nodes are unmarked. -/
theorem resetNodes_eq (nodes : List Id) (M : Marks) :
    resetNodes nodes M = { M with
      tflags := fun v ↦ if v ∈ nodes then 0 else M.tflags v
      info := fun v ↦ if v ∈ nodes then -1 else M.info v } := by
  rw [resetNodes]
  induction nodes generalizing M with
  | nil => simp
  | cons w nodes ih =>
    rw [List.foldl_cons, ih]
    simp only [setInfo, setTflags, List.mem_cons]
    congr 1 <;> funext v <;> by_cases hv : v ∈ nodes <;> by_cases hvw : v = w <;> simp [hv, hvw]

/-- Numbering the nodes of a list records the places in it, from `count + 1`. -/
theorem numberNodes_eq {l : List Id} (hl : l.Nodup) (count : ℤ) (M : Marks) :
    numberNodes count l M = { M with
      tflags := fun v ↦ if v ∈ l then 0 else M.tflags v
      info := fun v ↦ if v ∈ l then count + l.idxOf v + 1 else M.info v } := by
  induction l generalizing count M with
  | nil => simp [numberNodes]
  | cons w l ih =>
    obtain ⟨hw, hl⟩ := List.nodup_cons.1 hl
    rw [numberNodes, ih hl]
    simp only [setInfo, setTflags, List.mem_cons]
    congr 1
    · funext v
      by_cases hv : v ∈ l <;> by_cases hvw : v = w <;> simp [hv, hvw]
    · funext v
      by_cases hvw : v = w
      · subst hvw
        simp [hw]
      · have hidx : (w :: l).idxOf v = l.idxOf v + 1 := List.idxOf_cons_ne _ (Ne.symm hvw)
        by_cases hv : v ∈ l
        · simp only [hv, if_true, or_true, hidx]
          omega
        · simp [hv, hvw]

variable {S : Shape} (hS : S.WF)

include hS in
/-- An arc out of a node leads to a node. -/
theorem arcSucc_mem_nodes {v a : Id} (ha : a ∈ S.succ v) : S.arcSucc a ∈ S.nodes :=
  hS.arcSucc_mem a ((hS.mem_succ v a).1 ha).1

include hS in
/-- A traversal from the root stays in the graph. -/
theorem mem_nodes_of_mem_preorder {r : Id} (hr : S.root = some r) {evs : List (Event Id Id)}
    {V : Set Id} (h : Scan S.succ S.arcSucc r [r] {r} (S.succ r) evs V) {v : Id}
    (hv : v ∈ preorder S.arcSucc r evs) : v ∈ S.nodes := by
  rcases (h.mem_preorder_iff_reach.1 hv).cases_tail with rfl | ⟨w, -, a, ha, rfl⟩
  · exact hS.root_mem v hr
  · exact arcSucc_mem_nodes hS ha

/-- A graph that is sorted is not sorted again. -/
theorem topologicalSort_cached {M : Marks} (hflag : M.flags.topoSort = true) :
    topologicalSort S M = .ok (S.nodes.length - M.topoList.length, M) := by
  rw [topologicalSort, hflag, if_pos rfl]
  rfl

include hS in
/-- **The topological sort** returns; `topo_list` is the reverse postorder of a traversal from the
root, and the nodes not reached keep `info` -1. -/
theorem topologicalSort_spec {r : Id} (hr : S.root = some r) {M : Marks}
    (hflag : M.flags.topoSort = false) :
    ∃ evs V T, Scan S.succ S.arcSucc r [r] {r} (S.succ r) evs V ∧
      topologicalSort S M = .ok (S.nodes.length - (postorder r evs).length, { M with
        flags := { M.flags with topoSort := true }
        tflags := T
        info := fun v ↦
          if v ∈ postorder r evs then ((postorder r evs).reverse.idxOf v : ℤ) + 1
          else if v ∈ S.nodes then -1 else M.info v
        topoList := (postorder r evs).reverse }) ∧
      (∀ v ∈ S.nodes, T v = 0) ∧ ∀ v, v ∉ S.nodes → T v = M.tflags v := by
  have hrmem : r ∈ S.nodes := hS.root_mem r hr
  let M₀ : Marks := { resetNodes S.nodes M with topoList := [] }
  have htflags : ∀ v ∈ S.nodes, M₀.tflags v = 0 := fun v hv ↦ by
    simp [M₀, resetNodes_eq, hv]
  have hroot : ∀ v ∈ S.nodes.toFinset,
      (topoVisitor S).marked (setTflags r 1 M₀) v = true ↔ v = r := by
    intro v hv
    have := htflags v (List.mem_toFinset.1 hv)
    by_cases hvr : v = r <;> simp [topoVisitor, setTflags, hvr, this]
  have hclosed : ∀ v ∈ S.nodes.toFinset, ∀ e ∈ S.succ v, S.arcSucc e ∈ S.nodes.toFinset :=
    fun v _ e he ↦ List.mem_toFinset.2 (arcSucc_mem_nodes hS he)
  obtain ⟨evs, V, hscan, hrun, hmark⟩ := (topoVisitor_marks S).visit_eq (m := Run)
    (.error .outOfFuel) hclosed (List.mem_toFinset.2 hrmem) ((List.toFinset_card_le _).trans (Nat.le_succ _)) hroot
  obtain ⟨T, hT, hframe⟩ := topoVisitor_foldl S evs (setTflags r 1 M₀)
  rw [hT] at hrun hmark
  have hmem : ∀ v, v ∈ postorder r evs ↔ v ∈ V := fun v ↦ by
    rw [hscan.postorder_perm.mem_iff, hscan.mem_preorder_iff]
  have hvisit : dfsTopoVisit S S.fuel r M₀ = .ok { M₀ with
      tflags := T, topoList := (postorder r evs).reverse } := by
    rw [dfsTopoVisit_eq, Shape.fuel, hrun]
    simp [topoVisitor, setTflags, M₀, postorder]
  have hnodup : (postorder r evs).reverse.Nodup := List.nodup_reverse.2 hscan.nodup_postorder
  refine ⟨evs, V, fun v ↦ if v ∈ postorder r evs then 0 else T v, hscan, ?_, fun v hv ↦ ?_,
    fun v hv ↦ ?_⟩
  · rw [topologicalSort, hflag, if_neg Bool.false_ne_true, Shape.getRoot, hr, Run.ok_bind]
    change (dfsTopoVisit S S.fuel r M₀ >>= _) = _
    rw [hvisit, Run.ok_bind]
    simp only [numberNodes_eq hnodup, List.mem_reverse, List.length_reverse, Run.pure_eq_ok, M₀,
      resetNodes_eq, zero_add]
  · show (if v ∈ postorder r evs then 0 else T v) = 0
    split_ifs with hpost
    · rfl
    · have := (hmark v (List.mem_toFinset.2 hv)).not.2 ((hmem v).not.1 hpost)
      simpa [topoVisitor] using this
  · have hnot : v ∉ preorder S.arcSucc r evs := fun h ↦ hv (mem_nodes_of_mem_preorder hS hr hscan h)
    have hvr : v ≠ r := fun heq ↦ hnot (heq ▸ List.mem_cons_self)
    show (if v ∈ postorder r evs then 0 else T v) = M.tflags v
    rw [if_neg (hscan.postorder_perm.mem_iff.not.2 hnot),
      hframe v fun h ↦ hnot (List.mem_cons_of_mem _ h)]
    simp [setTflags, hvr, M₀, resetNodes_eq, hv]

/-! ### Preorder -/

/-- The arcs `Graph_preorder_dfs_visit` goes through at a node, each with the direction it is taken
in: the arcs out of the node, and unless the traversal is directed the arcs into it. -/
def dfsOut (S : Shape) (directed : Bool) (v : Id) : List (Id × Bool) :=
  (S.succ v).map (·, true) ++ if directed then [] else (S.pred v).map (·, false)

/-- The far end of an arc. -/
def dfsDst (S : Shape) : Id × Bool → Id
  | (a, true) => S.arcSucc a
  | (a, false) => S.arcPred a

/-- What is done at an arc before the visit. -/
def dfsPass (S : Shape) (directed : Bool) (arc : Id × Bool) (M : Marks) : Marks :=
  if arc.2 then flagBackedge S directed arc.1 M else M

/-- What a visit does to the marks on entry. -/
def dfsEnter (v : Id) (M : Marks) : Marks :=
  { setTflags v grey M with dfsList := M.dfsList ++ [v] }

/-- `Graph_preorder_dfs_visit` as a traversal program. -/
def preorderVisitor (S : Shape) (directed : Bool) : Visitor Id (Id × Bool) Marks where
  marked M v := M.tflags v ≠ white
  enter _ arc M := dfsEnter (dfsDst S arc) (dfsPass S directed arc M)
  pass _ arc M := dfsPass S directed arc M
  leave v M := setTflags v black M

@[simp] theorem dfsPass_tflags (S : Shape) (directed : Bool) (arc : Id × Bool) (M : Marks) :
    (dfsPass S directed arc M).tflags = M.tflags := by
  rw [dfsPass, flagBackedge]
  split_ifs <;> rfl

@[simp] theorem dfsPass_dfsList (S : Shape) (directed : Bool) (arc : Id × Bool) (M : Marks) :
    (dfsPass S directed arc M).dfsList = M.dfsList := by
  rw [dfsPass, flagBackedge]
  split_ifs <;> rfl

@[simp] theorem grey_ne_white : grey ≠ white := by decide
@[simp] theorem black_ne_white : black ≠ white := by decide
@[simp] theorem white_ne_grey : white ≠ grey := by decide
@[simp] theorem black_ne_grey : black ≠ grey := by decide

/-- The colours that the traversal tests are those it sets. -/
theorem preorderVisitor_marks (S : Shape) (directed : Bool) :
    (preorderVisitor S directed).Marks (dfsDst S) where
  enter c e M v := by
    by_cases h : v = dfsDst S e <;>
      simp [preorderVisitor, dfsEnter, setTflags, h]
  pass _ _ _ _ := by simp [preorderVisitor]
  leave v M w hv := by
    by_cases h : w = v
    · subst h
      simp only [preorderVisitor, decide_eq_true_eq] at hv
      simp [preorderVisitor, setTflags, hv]
    · simp [preorderVisitor, setTflags, h]

/-- The recursive function is the traversal program with its last step. -/
theorem preorderDfsVisit_eq (S : Shape) (directed : Bool) (fuel : ℕ) (node : Id) (M : Marks) :
    preorderDfsVisit S directed fuel node M = (preorderVisitor S directed).leave node <$>
      (preorderVisitor S directed).visit (dfsOut S directed) (dfsDst S) (.error .outOfFuel) fuel
        node (dfsEnter node M) := by
  induction fuel generalizing node M with
  | zero => rfl
  | succ fuel ih =>
    have hstep : ∀ (arc : Id × Bool) (M : Marks),
        (if (dfsPass S directed arc M).tflags (dfsDst S arc) = white
          then preorderDfsVisit S directed fuel (dfsDst S arc) (dfsPass S directed arc M)
          else .ok (dfsPass S directed arc M)) =
        (preorderVisitor S directed).arcStep (dfsDst S)
          ((preorderVisitor S directed).visit (dfsOut S directed) (dfsDst S) (.error .outOfFuel)
            fuel) node M arc := by
      intro arc M
      rw [Visitor.arcStep, ih, dfsPass_tflags]
      by_cases h : M.tflags (dfsDst S arc) = white
      · simp only [preorderVisitor, h, if_true, ne_eq, not_true_eq_false, decide_false,
          Bool.false_eq_true, if_false]
        rfl
      · simp [preorderVisitor, h]
    have hsucc := funext fun M ↦ funext fun arc ↦ hstep (arc, true) M
    have hpred := funext fun M ↦ funext fun arc ↦ hstep (arc, false) M
    simp only [dfsPass, dfsDst, if_true, Bool.false_eq_true, if_false] at hsucc hpred
    rw [preorderDfsVisit, Visitor.visit, dfsOut, List.foldlM_append, List.foldlM_map]
    simp only [hsucc, hpred]
    rw [map_bind]
    refine bind_congr fun M ↦ ?_
    rw [← bind_pure_comp]
    cases directed with
    | true => rfl
    | false => simp only [Bool.false_eq_true, if_false, List.foldlM_map]; rfl

/-- At a grey node a directed traversal flags the arc. -/
theorem dfsPass_of_grey {directed : Bool} {arc : Id × Bool} {M : Marks}
    (h : M.tflags (dfsDst S arc) = grey) : dfsPass S directed arc M = { M with
      backedge := fun a ↦ M.backedge a || (directed && decide (arc = (a, true))) } := by
  obtain ⟨a, _ | _⟩ := arc
  · simp [dfsPass]
  · cases directed with
    | false => simp [dfsPass, flagBackedge]
    | true =>
      have h' : M.tflags (S.arcSucc a) = grey := h
      simp only [dfsPass, flagBackedge, h', and_self, if_true]
      congr 1
      funext b
      by_cases hb : b = a
      · simp [hb]
      · simp [hb, Ne.symm hb]

/-- At any other node nothing is flagged. -/
theorem dfsPass_of_not_grey {directed : Bool} {arc : Id × Bool} {M : Marks}
    (h : M.tflags (dfsDst S arc) ≠ grey) : dfsPass S directed arc M = M := by
  obtain ⟨a, _ | _⟩ := arc
  · rfl
  · have h' : ¬M.tflags (S.arcSucc a) = grey := h
    simp [dfsPass, flagBackedge, h']

/-- **The colours.** Grey are the nodes on the recursion stack, white those not seen yet. -/
structure Coloured (nodes g : List Id) (V : Set Id) (tflags : Id → ℤ) : Prop where
  grey_iff : ∀ v ∈ nodes, tflags v = grey ↔ v ∈ g
  white_iff : ∀ v ∈ nodes, tflags v = white ↔ v ∉ V

/-- A node becomes grey when it is entered. -/
theorem Coloured.enter {nodes g : List Id} {V : Set Id} {T : Id → ℤ} (h : Coloured nodes g V T)
    (w : Id) : Coloured nodes (w :: g) (insert w V) (Function.update T w grey) where
  grey_iff v hv := by
    by_cases hvw : v = w
    · simp [hvw]
    · simp [hvw, h.grey_iff v hv]
  white_iff v hv := by
    by_cases hvw : v = w
    · simp [hvw]
    · simp [hvw, h.white_iff v hv]

/-- It becomes black when it is left. -/
theorem Coloured.leave {nodes g : List Id} {V : Set Id} {T : Id → ℤ} {w : Id}
    (h : Coloured nodes (w :: g) V T) (hg : w ∉ g) (hV : w ∈ V) :
    Coloured nodes g V (Function.update T w black) where
  grey_iff v hv := by
    by_cases hvw : v = w
    · simp [hvw, hg]
    · simp [hvw, h.grey_iff v hv]
  white_iff v hv := by
    by_cases hvw : v = w
    · simp [hvw, hV]
    · simp [hvw, h.white_iff v hv]

include hS in
/-- The far end of an arc is a node. -/
theorem dfsDst_mem_nodes {directed : Bool} {v : Id} {arc : Id × Bool}
    (ha : arc ∈ dfsOut S directed v) : dfsDst S arc ∈ S.nodes := by
  rw [dfsOut, List.mem_append, List.mem_map] at ha
  rcases ha with ⟨a, ha, rfl⟩ | ha
  · exact arcSucc_mem_nodes hS ha
  · cases directed with
    | true => simp at ha
    | false =>
      obtain ⟨a, ha', rfl⟩ := List.mem_map.1 ha
      exact hS.arcPred_mem a ((hS.mem_pred v a).1 ha').1

include hS in
/-- What the events do to the marks: the nodes entered go to the end of `dfs_list`, and the arcs to
nodes on the recursion stack are flagged. -/
theorem preorderVisitor_foldl {directed : Bool} {c : Id} {g : List Id} {V V' : Set Id}
    {es : List (Id × Bool)} {evs : List (Event Id (Id × Bool))}
    (h : Scan (dfsOut S directed) (dfsDst S) c g V es evs V')
    (hes : ∀ e ∈ es, dfsDst S e ∈ S.nodes) (hg : ∀ v ∈ g, v ∈ V) {M : Marks}
    (hM : Coloured S.nodes g V M.tflags) :
    ∃ T B, evs.foldl (preorderVisitor S directed).handle M = { M with
        tflags := T
        backedge := B
        dfsList := M.dfsList ++ entered (dfsDst S) evs } ∧
      Coloured S.nodes g V' T ∧ (∀ v, v ∉ entered (dfsDst S) evs → T v = M.tflags v) ∧
      ∀ a, B a = true ↔ M.backedge a = true ∨ directed = true ∧ ∃ x, .back x (a, true) ∈ evs := by
  -- on the scan: at a tree arc, what is below the node comes first and then the other arcs
  induction h generalizing M with
  | done => exact ⟨M.tflags, M.backedge, by simp, hM, fun _ _ ↦ rfl, by simp⟩
  | @back c g V e es evs V' hgrey hV h ih =>
    have hnode := hes e List.mem_cons_self
    obtain ⟨T, B, hrun, hT, hframe, hB⟩ := ih (fun e' he' ↦ hes e' (List.mem_cons_of_mem _ he')) hg
      (M := dfsPass S directed e M) (by simpa using hM)
    refine ⟨T, B, ?_, hT, fun v hv ↦ (hframe v hv).trans (by simp), fun a ↦ ?_⟩
    · rw [List.foldl_cons, Visitor.handle]
      refine hrun.trans ?_
      simp [dfsPass_of_grey ((hM.grey_iff _ hnode).2 hgrey)]
    · rw [hB, dfsPass_of_grey ((hM.grey_iff _ hnode).2 hgrey)]
      simp only [Bool.or_eq_true, Bool.and_eq_true, decide_eq_true_eq, List.mem_cons,
        Event.back.injEq]
      have heq : (∃ x, x = c ∧ (a, true) = e) ↔ e = (a, true) :=
        ⟨by rintro ⟨_, _, he⟩; exact he.symm, fun he ↦ ⟨c, rfl, he.symm⟩⟩
      rw [or_assoc, ← and_or_left, exists_or, heq]
  | @cross c g V e es evs V' hgrey hV h ih =>
    have hnode := hes e List.mem_cons_self
    obtain ⟨T, B, hrun, hT, hframe, hB⟩ :=
      ih (fun e' he' ↦ hes e' (List.mem_cons_of_mem _ he')) hg hM
    refine ⟨T, B, ?_, hT, hframe, by simpa using hB⟩
    rw [List.foldl_cons, Visitor.handle]
    simp only [preorderVisitor, dfsPass_of_not_grey ((hM.grey_iff _ hnode).not.2 hgrey)]
    exact hrun
  | @tree c g V e es evs₁ V₁ evs₂ V₂ hV h₁ h₂ ih₁ ih₂ =>
    have hnode := hes e List.mem_cons_self
    have hng : dfsDst S e ∉ g := fun h ↦ hV (hg _ h)
    have hpass : dfsPass S directed e M = M := dfsPass_of_not_grey ((hM.grey_iff _ hnode).not.2 hng)
    obtain ⟨T₁, B₁, hrun₁, hT₁, hframe₁, hB₁⟩ := ih₁ (fun e' he' ↦ dfsDst_mem_nodes hS he')
      (fun v hv ↦ (List.mem_cons.1 hv).imp id (hg v)) (M := dfsEnter (dfsDst S e) M)
      (hM.enter (dfsDst S e))
    have hmem₁ : dfsDst S e ∈ V₁ := h₁.mem_iff.2 (.inl (Set.mem_insert _ _))
    obtain ⟨T₂, B₂, hrun₂, hT₂, hframe₂, hB₂⟩ := ih₂ (fun e' he' ↦ hes e' (List.mem_cons_of_mem _ he'))
      (fun v hv ↦ h₁.mem_iff.2 (.inl (.inr (hg v hv))))
      (M := setTflags (dfsDst S e) black { dfsEnter (dfsDst S e) M with
        tflags := T₁
        backedge := B₁
        dfsList := (dfsEnter (dfsDst S e) M).dfsList ++ entered (dfsDst S) evs₁ })
      (hT₁.leave hng hmem₁)
    refine ⟨T₂, B₂, ?_, hT₂, fun v hv ↦ ?_, fun a ↦ ?_⟩
    · rw [List.foldl_cons, List.foldl_append, List.foldl_cons]
      simp only [Visitor.handle]
      simp only [preorderVisitor, hpass] at hrun₁ hrun₂ ⊢
      rw [hrun₁, hrun₂]
      simp [setTflags, dfsEnter]
    · simp only [entered_enter, entered_append, entered_leave, List.mem_cons, List.mem_append,
        not_or] at hv
      rw [hframe₂ v hv.2.2]
      simp only [setTflags, Function.update_of_ne hv.1]
      rw [hframe₁ v hv.2.1]
      exact Function.update_of_ne hv.1 _ _
    · rw [hB₂]
      simp only [setTflags, dfsEnter] at hB₁ ⊢
      rw [hB₁]
      simp only [List.mem_cons, List.mem_append, reduceCtorEq, false_or]
      rw [or_assoc, ← and_or_left, exists_or]

include hS in
/-- A traversal from a node stays in the graph. -/
theorem mem_nodes_of_mem_dfs {directed : Bool} {r : Id} (hr : r ∈ S.nodes)
    {evs : List (Event Id (Id × Bool))} {V : Set Id}
    (h : Scan (dfsOut S directed) (dfsDst S) r [r] {r} (dfsOut S directed r) evs V) {v : Id}
    (hv : v ∈ preorder (dfsDst S) r evs) : v ∈ S.nodes := by
  rcases List.mem_cons.1 hv with rfl | hv
  · exact hr
  · obtain ⟨w, e, he, rfl⟩ := exists_enter_of_mem hv
    exact dfsDst_mem_nodes hS (h.mem_out_of_enter (fun _ h ↦ h) he)

include hS in
/-- **A visit of the root** among white nodes returns, and does what the events of a traversal say. -/
theorem preorderDfsVisit_spec (directed : Bool) {r : Id} (hr : r ∈ S.nodes) {M : Marks}
    (hwhite : ∀ v ∈ S.nodes, M.tflags v = white) :
    ∃ evs V T B, Scan (dfsOut S directed) (dfsDst S) r [r] {r} (dfsOut S directed r) evs V ∧
      preorderDfsVisit S directed S.fuel r M = .ok { M with
        tflags := T
        backedge := B
        dfsList := M.dfsList ++ preorder (dfsDst S) r evs } ∧
      (∀ v ∈ S.nodes, v ∉ preorder (dfsDst S) r evs → T v = white) ∧
      (∀ v, v ∉ S.nodes → T v = M.tflags v) ∧
      ∀ a, B a = true ↔ M.backedge a = true ∨ directed = true ∧ ∃ x, .back x (a, true) ∈ evs := by
  have hroot : ∀ v ∈ S.nodes.toFinset,
      (preorderVisitor S directed).marked (dfsEnter r M) v = true ↔ v = r := by
    intro v hv
    have := hwhite v (List.mem_toFinset.1 hv)
    by_cases hvr : v = r <;> simp [preorderVisitor, dfsEnter, setTflags, hvr, this]
  have hclosed : ∀ v ∈ S.nodes.toFinset, ∀ e ∈ dfsOut S directed v,
      dfsDst S e ∈ S.nodes.toFinset := fun v _ e he ↦ List.mem_toFinset.2 (dfsDst_mem_nodes hS he)
  obtain ⟨evs, V, hscan, hrun, -⟩ := (preorderVisitor_marks S directed).visit_eq (m := Run)
    (.error .outOfFuel) hclosed (List.mem_toFinset.2 hr) ((List.toFinset_card_le _).trans (Nat.le_succ _)) hroot
  have hcol : Coloured S.nodes [r] {r} (dfsEnter r M).tflags := by
    have h := (⟨by simp +contextual [hwhite], by simp +contextual [hwhite]⟩ :
      Coloured S.nodes [] ∅ M.tflags).enter r
    rwa [insert_empty_eq] at h
  obtain ⟨T, B, hfold, hT, hframe, hB⟩ := preorderVisitor_foldl hS hscan
    (fun e he ↦ dfsDst_mem_nodes hS he) (fun v hv ↦ List.mem_singleton.1 hv) hcol
  refine ⟨evs, V, Function.update T r black, B, hscan, ?_, fun v hv hnot ↦ ?_, fun v hv ↦ ?_, hB⟩
  · rw [preorderDfsVisit_eq, Shape.fuel, hrun, hfold]
    simp [preorderVisitor, setTflags, dfsEnter, preorder]
  · have hvr : v ≠ r := fun heq ↦ hnot (heq ▸ List.mem_cons_self)
    rw [Function.update_of_ne hvr, hT.white_iff v hv, ← hscan.mem_preorder_iff]
    exact hnot
  · have hvr : v ≠ r := (ne_of_mem_of_not_mem hr hv).symm
    rw [Function.update_of_ne hvr,
      hframe v fun h ↦ hv (mem_nodes_of_mem_dfs hS hr hscan (List.mem_cons_of_mem _ h))]
    exact Function.update_of_ne hvr _ _

include hS in
/-- **The preorder sort** returns, and leaves in `dfs_list` the nodes in the order of a traversal from
the root. -/
theorem preorderDfsSort_spec (directed : Bool) {r : Id} (hr : S.root = some r) {M : Marks}
    (hflag : M.flags.dfsPreSort = false) :
    ∃ evs V T B dom,
      Scan (dfsOut S directed) (dfsDst S) r [r] {r} (dfsOut S directed r) evs V ∧
      dominator S M = .ok { M with dom := dom, flags := { M.flags with dom := true } } ∧
      preorderDfsSort S directed M = .ok { M with
        flags := { M.flags with dom := true, dfsPreSort := true }
        tflags := T
        info := fun v ↦ if v ∈ preorder (dfsDst S) r evs
          then ((preorder (dfsDst S) r evs).idxOf v : ℤ) + 1
          else if v ∈ S.nodes then -1 else M.info v
        dom := dom
        backedge := B
        dfsList := preorder (dfsDst S) r evs } ∧
      (∀ v ∈ S.nodes, T v = white) ∧ (∀ v, v ∉ S.nodes → T v = M.tflags v) ∧
      ∀ a, B a = true ↔ M.backedge a = true ∨ directed = true ∧ ∃ x, .back x (a, true) ∈ evs := by
  obtain ⟨dom, hdom⟩ := dominator_ok hS M
  let M₀ : Marks := { resetNodes S.nodes
    { M with dom := dom, flags := { M.flags with dom := true } } with dfsList := [] }
  have hwhite : ∀ v ∈ S.nodes, M₀.tflags v = white := fun v hv ↦ by
    simp [M₀, resetNodes_eq, hv, white]
  obtain ⟨evs, V, T, B, hscan, hrun, hT, hframe, hB⟩ :=
    preorderDfsVisit_spec hS directed (hS.root_mem r hr) hwhite
  have hnodup := hscan.nodup_preorder
  refine ⟨evs, V, fun v ↦ if v ∈ preorder (dfsDst S) r evs then 0 else T v, B, dom, hscan, hdom,
    ?_, fun v hv ↦ ?_, fun v hv ↦ ?_, fun a ↦ ?_⟩
  · rw [preorderDfsSort, hflag, if_neg Bool.false_ne_true, hdom, Run.ok_bind, Shape.getRoot, hr,
      Run.ok_bind]
    change (preorderDfsVisit S directed S.fuel r M₀ >>= _) = _
    rw [hrun, Run.ok_bind]
    simp only [numberNodes_eq hnodup, Run.pure_eq_ok, M₀, resetNodes_eq, zero_add, List.nil_append]
  · show (if v ∈ preorder (dfsDst S) r evs then 0 else T v) = white
    split_ifs with hpre
    · rfl
    · exact hT v hv hpre
  · have hnot : v ∉ preorder (dfsDst S) r evs := fun h ↦
      hv (mem_nodes_of_mem_dfs hS (hS.root_mem r hr) hscan h)
    show (if v ∈ preorder (dfsDst S) r evs then 0 else T v) = M.tflags v
    rw [if_neg hnot, hframe v hv]
    simp [M₀, resetNodes_eq, hv]
  · rw [hB]
    simp [M₀, resetNodes_eq]

end OpenImpact.Graph
