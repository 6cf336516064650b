import OpenImpact.Foundation.DomOrder
import Mathlib.Order.Bounds.Basic

/-!
# Dominance frontiers

Where the dominance of a vertex ends. The frontier of a vertex comes from its own edges and from the
frontiers of the vertices it immediately dominates, without what it immediately dominates itself
(`mem_frontier_iff`), so that it can be computed from the leaves of the dominator tree upwards.
-/

namespace OpenImpact.Foundation

variable {α : Type*} {E : α → α → Prop} {root u v w p : α}

/-- `w` is where the dominance of `v` ends: `v` dominates a vertex with an edge to `w`, but not `w` itself
strictly. -/
def InFrontier (E : α → α → Prop) (root v w : α) : Prop :=
  (∃ p, E p w ∧ Dominates E root v p) ∧ ¬(Dominates E root v w ∧ v ≠ w)

/-- The frontier of a set. -/
def frontier (E : α → α → Prop) (root : α) (S : Set α) : Set α :=
  {w | ∃ v ∈ S, InFrontier E root v w}

theorem frontier_mono {S T : Set α} (h : S ⊆ T) : frontier E root S ⊆ frontier E root T :=
  fun _ ⟨v, hv, hw⟩ ↦ ⟨v, h hv, hw⟩

theorem Dominates.reach (h : Dominates E root v w) (hreach : Relation.ReflTransGen E root w) :
    Relation.ReflTransGen E root v := by
  obtain ⟨l, hl⟩ := exists_walk hreach
  obtain ⟨m, hm, -⟩ := hl.exists_upto (h l hl)
  exact hm.reflTransGen hm.head_mem

/-- Among dominators of a vertex one dominates the others. -/
theorem exists_farthest (hreach : Relation.ReflTransGen E root v) {l : List α} (hne : l ≠ [])
    (hl : ∀ d ∈ l, Dominates E root d v) :
    ∃ d ∈ l, ∀ d' ∈ l, Dominates E root d d' := by
  induction l with
  | nil => exact absurd rfl hne
  | cons x l ih =>
    obtain ⟨hx, hrest⟩ := List.forall_mem_cons.1 hl
    by_cases hnil : l = []
    · subst hnil
      exact ⟨x, List.mem_cons_self, by simpa using Dominates.refl E root x⟩
    obtain ⟨d, hd, hall⟩ := ih hnil hrest
    rcases hx.total (hrest d hd) hreach with hxd | hdx
    · exact ⟨x, List.mem_cons_self, List.forall_mem_cons.2
        ⟨Dominates.refl E root x, fun d' hd' ↦ hxd.trans (hall d' hd')⟩⟩
    · exact ⟨d, List.mem_cons_of_mem x hd, List.forall_mem_cons.2 ⟨hdx, hall⟩⟩

/-- **A strict dominator immediately dominates a dominator** of the same vertex. -/
theorem exists_isIdom_between (hreach : Relation.ReflTransGen E root w) (hdom : Dominates E root v w)
    (hne : v ≠ w) : ∃ u, IsIdom E root v u ∧ Dominates E root u w := by
  classical
  obtain ⟨l, hl⟩ := exists_walk hreach
  -- the first vertex after `v` on the way down the dominator tree
  obtain ⟨u, hu, hall⟩ := exists_farthest hreach
    (l := l.filter fun d ↦ Dominates E root d w ∧ Dominates E root v d ∧ v ≠ d)
    (List.ne_nil_of_mem (List.mem_filter.2
      ⟨hl.last_mem, by simpa using ⟨Dominates.refl E root w, hdom, hne⟩⟩))
    fun d hd ↦ (by simpa using (List.mem_filter.1 hd).2 : _ ∧ _).1
  obtain ⟨huw, hvu, hvne⟩ : Dominates E root u w ∧ Dominates E root v u ∧ v ≠ u := by
    simpa using (List.mem_filter.1 hu).2
  refine ⟨u, ⟨hvu, hvne, fun d hd hdu ↦ ?_⟩, huw⟩
  have hdw := hd.trans huw
  rcases hdw.total hdom hreach with h | h
  · exact h
  by_cases hvd : v = d
  · exact hvd ▸ Dominates.refl E root v
  · have hud := hall d (List.mem_filter.2 ⟨hdw l hl, by simpa using ⟨hdw, h, hvd⟩⟩)
    exact absurd (hd.antisymm (hdw.reach hreach) hud) hdu

/-- A strict dominator of the end of an edge dominates its source. -/
theorem Dominates.of_edge_to (h : Dominates E root v w) (hne : v ≠ w) (hpw : E p w) :
    Dominates E root v p :=
  h.of_avoiding (.single ⟨hpw, hne.symm⟩)

/-- An edge to a strictly dominated vertex is an edge from the immediate dominator. -/
theorem isIdom_of_edge (hvw : E v w) (hdom : Dominates E root v w) (hne : v ≠ w) :
    IsIdom E root v w :=
  ⟨hdom, hne, fun _ hd hdw ↦ hd.of_edge_to hdw hvw⟩

/-- **Frontiers from the leaves upwards.** -/
theorem inFrontier_iff (hreach : ∀ x, Relation.ReflTransGen E root x) :
    InFrontier E root v w ↔
      (E v w ∨ ∃ u, IsIdom E root v u ∧ InFrontier E root u w) ∧ ¬IsIdom E root v w := by
  constructor
  · rintro ⟨⟨p, hpw, hvp⟩, hnot⟩
    refine ⟨?_, fun hidom ↦ hnot ⟨hidom.dominates, hidom.ne⟩⟩
    by_cases hne : v = p
    · exact .inl (hne ▸ hpw)
    obtain ⟨u, hvu, hup⟩ := exists_isIdom_between (hreach p) hvp hne
    refine .inr ⟨u, hvu, ⟨p, hpw, hup⟩, fun huw ↦ hnot ⟨hvu.dominates.trans huw.1, ?_⟩⟩
    rintro rfl
    exact hvu.ne (hvu.dominates.antisymm (hreach v) huw.1)
  · rintro ⟨hvw | ⟨u, hvu, ⟨p, hpw, hup⟩, hnot⟩, hidom⟩
    · exact ⟨⟨v, hvw, Dominates.refl E root v⟩, fun h ↦ hidom (isIdom_of_edge hvw h.1 h.2)⟩
    refine ⟨⟨p, hpw, hvu.dominates.trans hup⟩, fun ⟨hdom, hne⟩ ↦ hidom ⟨hdom, hne, fun d hd hdw ↦ ?_⟩⟩
    -- `d` and `u` are on the way down to `p`; below `u` there is only `w` itself
    rcases (hd.of_edge_to hdw hpw).total hup (hreach p) with hdu | hud
    · by_cases heq : d = u
      · exact absurd ⟨heq ▸ hd, heq ▸ hdw⟩ hnot
      · exact hvu.closest d hdu heq
    · have huw := hud.trans hd
      by_cases heq : u = w
      · exact absurd (hd.antisymm (hreach d) (heq ▸ hud)) hdw
      · exact absurd ⟨huw, heq⟩ hnot

end OpenImpact.Foundation
