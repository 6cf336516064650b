import OpenImpact.Foundation.DomOrder
import Mathlib.Tactic.TypeStar

/-!
# Post-dominators

Post-dominance towards a stop vertex is dominance from it along the reversed edges
(`postDominates_iff`), so what holds of dominators holds of post-dominators.
-/

namespace OpenImpact.Foundation

variable {α : Type*} {E : α → α → Prop} {stop a b c p v : α}

/-- Every walk from `v` to the stop vertex passes `p`. -/
def PostDominates (E : α → α → Prop) (stop p v : α) : Prop :=
  ∀ l, Walk E v l stop → p ∈ l

/-- The strict post-dominator of `v` that every strict post-dominator of `v` post-dominates. -/
structure IsIpdom (E : α → α → Prop) (stop p v : α) : Prop where
  postDominates : PostDominates E stop p v
  ne : p ≠ v
  closest : ∀ p', PostDominates E stop p' v → p' ≠ v → PostDominates E stop p' p

theorem Walk.flip {l : List α} (h : Walk E a l b) : Walk (flip E) b l.reverse a := by
  induction h with
  | nil a => exact .nil a
  | cons hab _ ih =>
    rw [List.reverse_cons]
    exact ih.concat hab

theorem postDominates_iff : PostDominates E stop p v ↔ Dominates (flip E) stop p v := by
  constructor
  · intro h l hl
    exact List.mem_reverse.1 (h _ hl.flip)
  · intro h l hl
    exact List.mem_reverse.1 (h _ hl.flip)

theorem isIpdom_iff : IsIpdom E stop p v ↔ IsIdom (flip E) stop p v := by
  constructor
  · intro h
    exact ⟨postDominates_iff.1 h.postDominates, h.ne, fun p' hp' hne ↦
      postDominates_iff.1 (h.closest p' (postDominates_iff.2 hp') hne)⟩
  · intro h
    exact ⟨postDominates_iff.2 h.dominates, h.ne, fun p' hp' hne ↦
      postDominates_iff.2 (h.closest p' (postDominates_iff.1 hp') hne)⟩

theorem reflTransGen_flip (h : Relation.ReflTransGen E v stop) :
    Relation.ReflTransGen (flip E) stop v :=
  h.swap

/-- What post-dominates a vertex post-dominates where an edge leads, unless it is the vertex itself. -/
theorem PostDominates.of_edge (h : PostDominates E stop p v) (hne : p ≠ v) (hedge : E v b) :
    PostDominates E stop p b := by
  intro l hl
  exact (List.mem_cons.1 (h _ (.cons hedge hl))).resolve_left hne

theorem PostDominates.refl (E : α → α → Prop) (stop v : α) : PostDominates E stop v v :=
  fun _ hl ↦ hl.head_mem

theorem PostDominates.trans (hab : PostDominates E stop a b) (hbc : PostDominates E stop b c) :
    PostDominates E stop a c :=
  postDominates_iff.2 ((postDominates_iff.1 hab).trans (postDominates_iff.1 hbc))

theorem PostDominates.antisymm (hreach : Relation.ReflTransGen E a stop)
    (hab : PostDominates E stop a b) (hba : PostDominates E stop b a) : a = b :=
  (postDominates_iff.1 hab).antisymm (reflTransGen_flip hreach) (postDominates_iff.1 hba)

/-- A vertex leads to what post-dominates it. -/
theorem PostDominates.reflTransGen (h : PostDominates E stop p v)
    (hreach : Relation.ReflTransGen E v stop) : Relation.ReflTransGen E v p := by
  have := (postDominates_iff.1 h).reflTransGen (reflTransGen_flip hreach)
  exact this.swap

end OpenImpact.Foundation
