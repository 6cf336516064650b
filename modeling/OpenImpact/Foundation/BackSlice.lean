import Mathlib.Data.List.Basic
import Mathlib.Logic.Function.Basic
import Mathlib.Logic.Relation

/-!
# Marking backward along a topological order

One pass from the last node to the first, in which every marked node marks its predecessors, marks
everything that a marked node can be reached from, if no node comes after one of its successors
(`sliceBack_iff`).
-/

namespace OpenImpact.Foundation

variable {ι : Type*} [DecidableEq ι] {pred : ι → List ι} {marks : ι → Bool} {os : List ι} {o x : ι}

/-- A marked node marks its predecessors. -/
def markPreds (pred : ι → List ι) (marks : ι → Bool) (o : ι) : ι → Bool :=
  if marks o then (pred o).foldl (fun m p ↦ Function.update m p true) marks else marks

/-- Nodes in turn, the last one first. -/
def sliceBack (pred : ι → List ι) (marks : ι → Bool) (os : List ι) : ι → Bool :=
  os.foldr (fun o m ↦ markPreds pred m o) marks

theorem foldl_update_true (ps : List ι) (marks : ι → Bool) :
    ps.foldl (fun m p ↦ Function.update m p true) marks x = true ↔ marks x = true ∨ x ∈ ps := by
  induction ps generalizing marks with
  | nil => simp
  | cons p ps ih =>
    rw [List.foldl_cons, ih, List.mem_cons, Function.update_apply]
    split_ifs with h <;> simp [h]

theorem markPreds_iff :
    markPreds pred marks o x = true ↔ marks x = true ∨ marks o = true ∧ x ∈ pred o := by
  rw [markPreds]
  split_ifs with h
  · rw [foldl_update_true]
    simp [h]
  · simp [h]

/-- **The pass marks what leads to a marked node** through the nodes it visits. -/
theorem sliceBack_iff (horder : os.Pairwise fun a b ↦ b ∉ pred a) (hself : ∀ a ∈ os, a ∉ pred a) :
    sliceBack pred marks os x = true ↔
      ∃ y, marks y = true ∧ Relation.ReflTransGen (fun a b ↦ b ∈ os ∧ a ∈ pred b) x y := by
  induction os generalizing x with
  | nil =>
    constructor
    · exact fun h ↦ ⟨x, h, .refl⟩
    · rintro ⟨y, hy, hpath⟩
      rcases hpath.cases_head with rfl | ⟨z, ⟨hz, -⟩, -⟩
      · exact hy
      · cases hz
  | cons o os ih =>
    obtain ⟨hfirst, horder⟩ := List.pairwise_cons.1 horder
    have hback := fun {x} ↦ ih (x := x) horder fun a ha ↦ hself a (List.mem_cons_of_mem o ha)
    -- a path through the later nodes is one through all of them
    have hmono {a b : ι} (h : Relation.ReflTransGen (fun a b ↦ b ∈ os ∧ a ∈ pred b) a b) :
        Relation.ReflTransGen (fun a b ↦ b ∈ o :: os ∧ a ∈ pred b) a b :=
      h.lift id fun _ _ h ↦ ⟨List.mem_cons_of_mem o h.1, h.2⟩
    show markPreds pred (sliceBack pred marks os) o x = true ↔ _
    rw [markPreds_iff]
    constructor
    · rintro (h | ⟨h, hx⟩)
      · obtain ⟨y, hy, hpath⟩ := hback.1 h
        exact ⟨y, hy, hmono hpath⟩
      · obtain ⟨y, hy, hpath⟩ := hback.1 h
        exact ⟨y, hy, (hmono hpath).head ⟨List.mem_cons_self, hx⟩⟩
    · rintro ⟨y, hy, hpath⟩
      -- no edge leads back to `o`, so only the first one of a path can lead to it
      induction hpath using Relation.ReflTransGen.head_induction_on with
      | refl => exact Or.inl (hback.2 ⟨y, hy, .refl⟩)
      | head hedge _ hmarked =>
        obtain ⟨hmem, hpred⟩ := hedge
        rcases List.mem_cons.1 hmem with rfl | hmem
        · rcases hmarked with hmarked | ⟨-, hloop⟩
          · exact Or.inr ⟨hmarked, hpred⟩
          · exact absurd hloop (hself _ List.mem_cons_self)
        · rcases hmarked with hmarked | ⟨-, hearly⟩
          · obtain ⟨z, hz, hpath⟩ := hback.1 hmarked
            exact Or.inl (hback.2 ⟨z, hz, hpath.head ⟨hmem, hpred⟩⟩)
          · exact absurd hearly (hfirst _ hmem)

end OpenImpact.Foundation
