import OpenImpact.Foundation.DfsTree
import OpenImpact.Lcode.Dom

/-!
# The numbering of `LD_visit`

`LD_visit` is a depth-first traversal in the sense of `Foundation.Dfs`, whose actions number the node
entered and record its parent. So when every control node is reachable, its numbers and parents are
a `DfsNumbering`, and the fields of the forest are still as the nodes were created
(`visit_numbered`).
-/

namespace OpenImpact.LD

open Foundation Foundation.Dfs

variable {α : Type} [DecidableEq α] (g : ControlGraph α)

/-- The arcs of the control-node graph. -/
def ControlGraph.Edge (x y : α) : Prop := y ∈ g.succ x

/-- A control node that is reached from the root. -/
def ControlGraph.Reachable (v : α) : Prop := Relation.ReflTransGen g.Edge g.root v

theorem ControlGraph.mem_pred_iff {v w : α} : v ∈ g.pred w ↔ g.Edge v w := by
  simp only [pred, Edge, succ, List.mem_map, List.mem_filter, decide_eq_true_eq, Prod.exists,
    exists_and_right, exists_eq_right]

theorem ControlGraph.edge_eq_arc : g.Edge = Arc g.succ id := by
  funext x y
  simp [Edge, Arc]

/-- `LD_visit` as a traversal program. -/
def visitor : Visitor α α (Dom α) where
  marked st v := (st.dfn v).isSome
  enter c sn st := assignNext sn (some c) st
  pass _ _ st := st
  leave _ st := st

theorem visitor_marks : (visitor : Visitor α α (Dom α)).Marks id where
  enter c e st v := by
    by_cases h : v = e <;> simp [visitor, assignNext, assignDfn, h]
  pass _ _ _ _ := Iff.rfl
  leave _ _ _ _ := Iff.rfl

/-- `LD_visit` numbers its node and runs the program. -/
theorem visit_eq_visitor (fuel : ℕ) (par : Option α) (cn : α) (st : Dom α) :
    visit g fuel par cn st =
      visitor.visit g.succ id (.error .outOfFuel) fuel cn (assignNext cn par st) := by
  induction fuel generalizing par cn st with
  | zero => rfl
  | succ fuel ih =>
    rw [visit, Visitor.visit]
    congr 1
    funext st sn
    rw [Visitor.arcStep, ih]
    cases h : st.dfn sn with
    | none =>
      simp only [visitor, h, id, Option.isSome_none, Bool.false_eq_true, if_false, if_true]
      exact (bind_pure _).symm
    | some k => simp [visitor, h]

/-- The nodes numbered so far are `l`, in order. -/
structure Numbers (st : Dom α) (l : List α) : Prop where
  index : st.cbrecIndex = l.length
  dfn : ∀ v ∈ l, st.dfn v = some (l.idxOf v + 1)
  sdom : ∀ v ∈ l, st.sdom v = l.idxOf v + 1
  nhash : ∀ v ∈ l, st.nhash (l.idxOf v + 1) = some v

/-- The fields of the forest are as the nodes were created. -/
structure Fresh (st : Dom α) : Prop where
  label : ∀ v, st.label v = some v
  ancestor : ∀ v, st.ancestor v = none
  bucket : ∀ v, st.bucket v = []
  idom : ∀ v, st.idom v = none

theorem Numbers.assignNext {st : Dom α} {l : List α} (h : Numbers st l) {cn : α} (hcn : cn ∉ l)
    (par : Option α) : Numbers (assignNext cn par st) (l ++ [cn]) := by
  have hold : ∀ v ∈ l, (l ++ [cn]).idxOf v = l.idxOf v ∧ l.idxOf v < l.length ∧ v ≠ cn := by
    intro v hv
    exact ⟨List.idxOf_append_of_mem hv, List.idxOf_lt_length_of_mem hv, fun heq ↦ hcn (heq ▸ hv)⟩
  have hnew : (l ++ [cn]).idxOf cn = l.length := by
    rw [List.idxOf_append_of_notMem hcn]
    simp
  refine ⟨by simp [LD.assignNext, assignDfn, h.index], ?_, ?_, ?_⟩ <;> intro v hv <;>
    rcases List.mem_append.1 hv with hv | hv
  · obtain ⟨hidx, -, hne⟩ := hold v hv
    simp [LD.assignNext, assignDfn, hne, hidx, h.dfn v hv]
  · obtain rfl := List.mem_singleton.1 hv
    simp [LD.assignNext, assignDfn, h.index, hnew]
  · obtain ⟨hidx, -, hne⟩ := hold v hv
    simp [LD.assignNext, assignDfn, hne, hidx, h.sdom v hv]
  · obtain rfl := List.mem_singleton.1 hv
    simp [LD.assignNext, assignDfn, h.index, hnew]
  · obtain ⟨hidx, hlt, -⟩ := hold v hv
    simp only [LD.assignNext, assignDfn, h.index, hidx]
    rw [Function.update_of_ne (by omega), h.nhash v hv]
  · obtain rfl := List.mem_singleton.1 hv
    simp [LD.assignNext, assignDfn, h.index, hnew]

/-- Running the events numbers the nodes entered. -/
theorem Numbers.foldl_handle {st : Dom α} {l : List α} (h : Numbers st l)
    {evs : List (Event α α)} (hnodup : (l ++ entered id evs).Nodup) :
    Numbers (evs.foldl visitor.handle st) (l ++ entered id evs) := by
  induction evs generalizing st l with
  | nil => simpa using h
  | cons ev evs ih =>
    cases ev with
    | enter c e =>
      have hassoc : l ++ entered id (.enter c e :: evs) = (l ++ [e]) ++ entered id evs := by simp
      rw [hassoc] at hnodup ⊢
      have he : e ∉ l := fun hmem ↦
        (List.nodup_append.1 (List.nodup_append.1 hnodup).1).2.2 e hmem e (by simp) rfl
      exact ih (h.assignNext he (some c)) hnodup
    | back => exact ih h hnodup
    | cross => exact ih h hnodup
    | leave => exact ih h hnodup

theorem Fresh.foldl_handle {st : Dom α} (h : Fresh st) (evs : List (Event α α)) :
    Fresh (evs.foldl visitor.handle st) := by
  induction evs generalizing st with
  | nil => exact h
  | cons ev evs ih =>
    refine ih ?_
    cases ev <;> exact ⟨h.label, h.ancestor, h.bucket, h.idom⟩

/-- A parent, once recorded, stays unless the node is entered again. -/
theorem parent_foldl_handle {st : Dom α} {evs : List (Event α α)} {v : α}
    (hv : v ∉ entered id evs) : (evs.foldl visitor.handle st).parent v = st.parent v := by
  induction evs generalizing st with
  | nil => rfl
  | cons ev evs ih =>
    cases ev with
    | enter c e =>
      rw [entered_enter, List.mem_cons, not_or] at hv
      rw [List.foldl_cons, ih hv.2]
      simp only [Visitor.handle, visitor, assignNext, assignDfn]
      exact Function.update_of_ne hv.1 _ _
    | back => exact ih hv
    | cross => exact ih hv
    | leave => exact ih hv

theorem parent_of_enter {st : Dom α} {evs : List (Event α α)} (hnodup : (entered id evs).Nodup)
    {x v : α} (h : .enter x v ∈ evs) : (evs.foldl visitor.handle st).parent v = some x := by
  induction evs generalizing st with
  | nil => simp at h
  | cons ev evs ih =>
    rcases List.mem_cons.1 h with rfl | hmem
    · have hv : v ∉ entered id evs := (List.nodup_cons.1 hnodup).1
      rw [List.foldl_cons, parent_foldl_handle hv]
      simp [Visitor.handle, visitor, assignNext, assignDfn]
    · cases ev with
      | enter => exact ih (List.nodup_cons.1 hnodup).2 hmem
      | back => exact ih hnodup hmem
      | cross => exact ih hnodup hmem
      | leave => exact ih hnodup hmem

/-- What the two loops of `LD_dominator` find: numbers and parents from a depth-first traversal. -/
structure Numbered (T : α → α → Prop) (num : α → ℕ) (st : Dom α) : Prop where
  dfn : ∀ v, st.dfn v = some (num v)
  nhash : ∀ v, st.nhash (num v) = some v
  parent : ∀ p c, T p c → st.parent c = some p

/-- **The numbering.** When every control node is reachable, `LD_visit` returns, and numbers them from
1 on as a depth-first traversal does. -/
theorem visit_numbered [Fintype α] (hall : ∀ v, g.Reachable v) :
    ∃ T num st, DfsNumbering g.Edge T g.root num ∧ (∀ v, 0 < num v ∧ num v ≤ Fintype.card α) ∧
      num g.root = 1 ∧ visit g (Fintype.card α) none g.root newControlNodes = .ok st ∧
      Numbered T num st ∧ Fresh st ∧ ∀ v, st.sdom v = num v := by
  have hmark : ∀ v, visitor.marked (assignNext g.root none newControlNodes) v = true ↔
      v = g.root := by
    intro v
    by_cases hv : v = g.root <;> simp [visitor, assignNext, assignDfn, newControlNodes, hv]
  obtain ⟨evs, V, hscan, hrun, -⟩ := visitor_marks.visit_eq (m := Run) (.error .outOfFuel)
    (fun _ _ _ _ ↦ Finset.mem_univ _) (Finset.mem_univ g.root) (le_refl (Fintype.card α))
    fun v _ ↦ hmark v
  have hV : ∀ v, v ∈ V := fun v ↦ by
    rw [← hscan.mem_preorder_iff, hscan.mem_preorder_iff_reach, ← g.edge_eq_arc]
    exact hall v
  have hmem : ∀ v, v ∈ preorder id g.root evs := fun v ↦ hscan.mem_preorder_iff.2 (hV v)
  have hnum : Numbers (evs.foldl visitor.handle (assignNext g.root none newControlNodes))
      (preorder id g.root evs) := by
    have hroot : Numbers (assignNext g.root none newControlNodes) [g.root] :=
      Numbers.assignNext (l := []) ⟨rfl, by simp, by simp, by simp⟩ (by simp) none
    exact hroot.foldl_handle hscan.nodup_preorder
  refine ⟨TreeArc id evs, number id g.root evs, _, g.edge_eq_arc ▸ hscan.dfsNumbering hV, ?_, ?_,
    (visit_eq_visitor g _ _ _ _).trans hrun, ⟨?_, ?_, ?_⟩, ?_, ?_⟩
  · intro v
    refine ⟨Nat.succ_pos _, ?_⟩
    have hlen := hscan.nodup_preorder.length_le_card
    have := List.idxOf_lt_length_of_mem (hmem v)
    rw [number]
    omega
  · simp [number, preorder]
  · exact fun v ↦ hnum.dfn v (hmem v)
  · exact fun v ↦ hnum.nhash v (hmem v)
  · rintro p _ ⟨c, hc, rfl⟩
    exact parent_of_enter hscan.nodup_entered hc
  · exact Fresh.foldl_handle ⟨fun _ ↦ rfl, fun _ ↦ rfl, fun _ ↦ rfl, fun _ ↦ rfl⟩ evs
  · exact fun v ↦ hnum.sdom v (hmem v)

end OpenImpact.LD
