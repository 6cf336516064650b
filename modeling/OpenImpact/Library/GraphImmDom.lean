import OpenImpact.Foundation.DomOrder
import OpenImpact.Library.GraphCache
import OpenImpact.Library.GraphControl
import OpenImpact.Library.GraphDomCorrect

/-!
# Immediate dominators

`Graph_imm_dominator` takes the dominator of a node that comes last before it in `topo_list`. When the
list is the reverse postorder of the topological sort this is the immediate dominator, also in a graph
with cycles (`lastBefore_isIdom`). But it never runs the sort: without one before the first call the list
is `NULL`, every `imm_dom` is `NULL`, and stays so (`immDomRight_iff`).
-/

namespace OpenImpact.Graph

open Foundation Foundation.Dfs

/-- The arcs as a relation. -/
abbrev Shape.Step (S : Shape) : Id → Id → Prop := Arc S.succ S.arcSucc

/-- Every node is reachable from a root without predecessor. -/
structure IsRooted (S : Shape) (r : Id) : Prop where
  wf : S.WF
  root : S.root = some r
  pred_root : S.pred r = []
  reach : ∀ v ∈ S.nodes, S.Reach r v

/-- The `imm_dom` fields are the immediate dominators, `NULL` for the root only. -/
def ImmDomRight (S : Shape) (r : Id) (immDom : Id → Option Id) : Prop :=
  ∀ v ∈ S.nodes, (immDom v = none ↔ v = r) ∧ ∀ d, immDom v = some d → IsIdom S.Step r d v

variable {S : Shape} {r : Id}

/-! ### The dominator sets -/

theorem stepInto_pred (hS : S.WF) : StepInto S.pred S.arcPred = S.Step := by
  funext x y
  refine propext ⟨?_, ?_⟩
  · rintro ⟨a, ha, rfl⟩
    obtain ⟨harc, rfl⟩ := (hS.mem_pred y a).1 ha
    exact ⟨a, (hS.mem_succ _ a).2 ⟨harc, rfl⟩, rfl⟩
  · rintro ⟨a, ha, rfl⟩
    obtain ⟨harc, rfl⟩ := (hS.mem_succ x a).1 ha
    exact ⟨a, (hS.mem_pred _ a).2 ⟨harc, rfl⟩, rfl⟩

theorem step_mem_nodes (hS : S.WF) {x y : Id} (h : S.Step x y) : x ∈ S.nodes ∧ y ∈ S.nodes := by
  obtain ⟨a, ha, rfl⟩ := h
  obtain ⟨harc, rfl⟩ := (hS.mem_succ x a).1 ha
  exact ⟨hS.arcPred_mem a harc, hS.arcSucc_mem a harc⟩

theorem IsRooted.pred_ne_nil (h : IsRooted S r) {v : Id} (hv : v ∈ S.nodes) (hne : v ≠ r) :
    S.pred v ≠ [] := by
  rcases (h.reach v hv).cases_tail with heq | ⟨b, -, a, ha, rfl⟩
  · exact absurd heq hne
  · exact List.ne_nil_of_mem ((h.wf.mem_pred _ a).2 ⟨((h.wf.mem_succ b a).1 ha).1, rfl⟩)

/-- **`Graph_dominator` is right.** -/
theorem IsRooted.dominator (h : IsRooted S r) {M : Marks} (hflag : M.flags.dom = false) :
    ∃ dom, dominator S M = .ok { M with dom := dom, flags := { M.flags with dom := true } } ∧
      IsDomSets S.Step r S.nodes dom := by
  have hadj : ∀ v ∈ S.nodes, ∀ a ∈ S.pred v, S.arcPred a ∈ S.nodes := fun v _ a ha ↦
    h.wf.arcPred_mem a ((h.wf.mem_pred v a).1 ha).1
  obtain ⟨dom, hrun, -⟩ := computeDom_ok hadj M.dom
  have hright := computeDom_spec hadj (fun v hv hne ↦ h.pred_ne_nil hv hne) h.pred_root
    (h.wf.root_mem r h.root) (fun x y hxy _ ↦ (step_mem_nodes h.wf (stepInto_pred h.wf ▸ hxy)).2) hrun
  refine ⟨dom, ?_, stepInto_pred h.wf ▸ hright⟩
  rw [Graph.dominator, hflag, if_neg Bool.false_ne_true, hrun]
  rfl

/-! ### The scan of `topo_list` -/

/-- The scan finds the element of the set that comes last before the node. -/
theorem lastBefore_split (node : Id) (set : Option (Finset Id)) (l : List Id) (imm : Option Id) :
    lastBefore node set l imm = imm ∧ (∀ x ∈ l.takeWhile (· ≠ node), ¬setIn set x) ∨
      ∃ l₁ d l₂, l.takeWhile (· ≠ node) = l₁ ++ d :: l₂ ∧ setIn set d ∧ (∀ x ∈ l₂, ¬setIn set x) ∧
        lastBefore node set l imm = some d := by
  induction l generalizing imm with
  | nil => exact .inl ⟨rfl, by simp⟩
  | cons t l ih =>
    rw [lastBefore]
    by_cases htn : t = node
    · rw [if_pos htn]
      exact .inl ⟨rfl, by simp [htn]⟩
    · rw [if_neg htn, List.takeWhile_cons_of_pos (by simpa using htn)]
      by_cases ht : setIn set t
      · rw [if_pos ht]
        rcases ih (some t) with ⟨heq, hnone⟩ | ⟨l₁, d, l₂, hsplit, hd, hlast, heq⟩
        · exact .inr ⟨[], t, _, rfl, ht, hnone, heq⟩
        · exact .inr ⟨t :: l₁, d, l₂, by rw [hsplit]; rfl, hd, hlast, heq⟩
      · rw [if_neg ht]
        rcases ih imm with ⟨heq, hnone⟩ | ⟨l₁, d, l₂, hsplit, hd, hlast, heq⟩
        · exact .inl ⟨heq, List.forall_mem_cons.2 ⟨ht, hnone⟩⟩
        · exact .inr ⟨t :: l₁, d, l₂, by rw [hsplit]; rfl, hd, hlast, heq⟩

section Scan

variable {E : Id → Id → Prop} {dom : Id → Option (Finset Id)} {l : List Id} {v : Id}

theorem IsDomSets.setIn_iff (h : IsDomSets E r S.nodes dom) (hv : v ∈ S.nodes) {d : Id} :
    setIn (dom v) d ↔ d ∈ S.nodes ∧ Dominates E r d v := by
  obtain ⟨s, hs, hmem⟩ := h v hv
  rw [setIn, hs, Option.getD_some, hmem]

/-- **The scan finds the immediate dominator**, in a list with the immediate dominators first. -/
theorem lastBefore_isIdom (hdom : IsDomSets E r S.nodes dom) (hmem : ∀ v, v ∈ l ↔ v ∈ S.nodes)
    (hnodup : l.Nodup) (hreach : ∀ v ∈ l, Relation.ReflTransGen E r v) (hfirst : IdomsFirst E r l)
    (hv : v ∈ S.nodes) :
    (lastBefore v (dom v) l none = none ↔ v = r) ∧
      ∀ d, lastBefore v (dom v) l none = some d → IsIdom E r d v := by
  have hvl := (hmem v).2 hv
  have hsub : ∀ x ∈ l.takeWhile (· ≠ v), x ∈ S.nodes ∧ x ≠ v := fun x hx ↦
    ⟨(hmem x).1 ((List.takeWhile_prefix _).subset hx), by simpa using List.mem_takeWhile_imp hx⟩
  rcases lastBefore_split v (dom v) l none with ⟨heq, hnone⟩ | ⟨l₁, d, l₂, hsplit, hd, hlast, heq⟩
  · refine ⟨⟨fun _ ↦ ?_, fun _ ↦ heq⟩, fun d hd ↦ by simp [heq] at hd⟩
    by_contra hne
    obtain ⟨p, hp⟩ := exists_isIdom (hreach v hvl) hne
    have hpl := mem_takeWhile_iff_idxOf_lt.2 (hfirst v hvl p hp)
    exact hnone p hpl ((hdom.setIn_iff hv).2 ⟨(hsub p hpl).1, hp.dominates⟩)
  · have hdl : d ∈ l.takeWhile (· ≠ v) := by
      rw [hsplit]
      simp
    have hdv := ((hdom.setIn_iff hv).1 hd).2
    refine ⟨⟨fun h ↦ by simp [heq] at h, ?_⟩, fun d' hd' ↦ ?_⟩
    · rintro rfl
      exact absurd (dominates_root_iff.1 hdv) (hsub d hdl).2
    · obtain rfl : d = d' := Option.some.inj (heq.symm.trans hd')
      refine IdomsFirst.isIdom_of_last hreach hfirst hnodup hvl hsplit hdv fun x hx hxv ↦ ?_
      have hxl : x ∈ l.takeWhile (· ≠ v) := by
        rw [hsplit]
        simp [hx]
      exact hlast x hx ((hdom.setIn_iff hv).2 ⟨(hsub x hxl).1, hxv⟩)

end Scan

/-- **In the reverse postorder of a traversal all dominators come first**: they are ancestors. -/
theorem idxOf_lt_of_dominates {evs : List (Event Id Id)} {V : Set Id}
    (hscan : Scan S.succ S.arcSucc r [r] {r} (S.succ r) evs V) {d v : Id}
    (hv : v ∈ preorder S.arcSucc r evs) (hdom : Dominates S.Step r d v) (hne : d ≠ v) :
    (postorder r evs).reverse.idxOf d < (postorder r evs).reverse.idxOf v := by
  have hnodup := List.nodup_reverse.2 hscan.nodup_postorder
  induction hscan.ancestor_root hv with
  | refl => exact absurd (dominates_root_iff.1 hdom) hne
  | @tail b c hanc hbc ih =>
    have hlt := idxOf_lt_of_sublist hnodup (hscan.sublist_postorder_of_treeArc hbc).reverse
    obtain ⟨e, he, rfl⟩ := hbc
    have hstep : S.Step b (S.arcSucc e) := ⟨e, hscan.mem_out_of_enter (fun _ h ↦ h) he, rfl⟩
    have hb : b ∈ preorder S.arcSucc r evs := by
      rcases hscan.sublist_of_enter he with rfl | hs
      · exact List.mem_cons_self
      · exact List.mem_cons_of_mem r (hs.subset List.mem_cons_self)
    by_cases hdb : d = b
    · rwa [hdb]
    · exact (ih hb (hdom.of_avoiding (.single ⟨hstep, Ne.symm hne⟩)) hdb).trans hlt

/-- The list has each node reached from the root once, and after its immediate dominator. -/
structure IsDomOrder (S : Shape) (r : Id) (l : List Id) : Prop where
  nodup : l.Nodup
  mem_iff : ∀ v, v ∈ l ↔ S.Reach r v
  idomsFirst : IdomsFirst S.Step r l

theorem isDomOrder_postorder {evs : List (Event Id Id)} {V : Set Id}
    (hscan : Scan S.succ S.arcSucc r [r] {r} (S.succ r) evs V) :
    IsDomOrder S r (postorder r evs).reverse where
  nodup := List.nodup_reverse.2 hscan.nodup_postorder
  mem_iff v := by rw [List.mem_reverse, hscan.postorder_perm.mem_iff, hscan.mem_preorder_iff_reach]
  idomsFirst v hv p hp := idxOf_lt_of_dominates hscan
    (hscan.postorder_perm.mem_iff.1 (List.mem_reverse.1 hv)) hp.dominates hp.ne

/-- A loop of the nodes 2 and 3, left from node 2. -/
def loopGraph : Shape := createCbGraph [(1, [2]), (2, [3, 4]), (3, [2]), (4, [])]

theorem loopGraph_isRooted : IsRooted loopGraph 1 := by
  have h₁₂ : loopGraph.Reach 1 2 := .single ⟨1, by decide, rfl⟩
  have h₂₃ : loopGraph.Reach 2 3 := .single ⟨2, by decide, rfl⟩
  have h₂₄ : loopGraph.Reach 2 4 := .single ⟨3, by decide, rfl⟩
  refine ⟨createCbGraph_wf (by decide) (by decide), rfl, rfl, ?_⟩
  exact List.forall_iff_forall_mem.1 ⟨.refl, h₁₂, h₁₂.trans h₂₃, h₁₂.trans h₂₄⟩

end OpenImpact.Graph
